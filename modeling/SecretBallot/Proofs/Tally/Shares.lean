import Mathlib
import SecretBallot.Proofs.PartialDecryption
import SecretBallot.Proofs.Proof.Statement
import SecretBallot.Proofs.Tally.Report

namespace SecretBallot

namespace ClosedTally

/-- What an authority decrypts: every total and every vote of a challenged ballot. -/
def slots (tally : ClosedTally) : List (Slot × Ciphertext) :=
  tally.totalSlots ++ tally.voteSlots

theorem mem_slots_iff {tally : ClosedTally} {slot : Slot} {ciphertext : Ciphertext} :
    (slot, ciphertext) ∈ tally.slots ↔
      (∃ entry ∈ tally.totals.entries, ∃ total ∈ entry.2.entries,
        .total entry.1 total.1 = slot ∧ total.2 = ciphertext) ∨
      ∃ ballot ∈ tally.challenged, ∃ race ∈ ballot.races, ∃ entry ∈ race.votes.entries,
        .vote ballot.id race.name entry.1 = slot ∧ entry.2.ciphertext = ciphertext := by
  simp only [slots, totalSlots, voteSlots, List.mem_append, List.mem_flatMap, List.mem_map,
    Prod.mk.injEq]

/-- Every slot has one ciphertext, and it is well-formed. -/
structure IsReady (tally : ClosedTally) (group : Group) : Prop where
  nodup : (tally.slots.map (·.1)).Nodup
  formed : ∀ entry ∈ tally.slots, entry.2.isWellFormed group = true

/-- Slots are distinct if no id comes twice among the challenged ballots and no name among the races
    of a ballot. -/
theorem nodup_slots {tally : ClosedTally} (hids : (tally.challenged.map (·.id)).Nodup)
    (hnames : ∀ ballot ∈ tally.challenged, (ballot.races.map (·.name)).Nodup) :
    (tally.slots.map (·.1)).Nodup := by
  have hslots : tally.slots.map (·.1) =
      (tally.totals.entries.flatMap fun entry => entry.2.keys.map (Slot.total entry.1)) ++
        tally.challenged.flatMap fun ballot => ballot.races.flatMap fun race =>
          race.votes.keys.map (Slot.vote ballot.id race.name) := by
    simp only [slots, totalSlots, voteSlots, List.map_append, List.map_flatMap, List.map_map,
      Dict.keys]
    rfl
  rw [hslots]
  refine List.Nodup.append ?_ ?_ ?_
  · rw [List.nodup_flatMap]
    refine ⟨fun entry _ => entry.2.keys_nodup.map fun _ _ h => (Slot.total.inj h).2, ?_⟩
    refine (List.pairwise_map.1 tally.totals.keys_nodup).imp fun hne slot hslot hother => ?_
    obtain ⟨_, _, rfl⟩ := List.mem_map.1 hslot
    obtain ⟨_, _, heq⟩ := List.mem_map.1 hother
    exact hne (Slot.total.inj heq).1.symm
  · rw [List.nodup_flatMap]
    refine ⟨fun ballot hballot => ?_,
      (List.pairwise_map.1 hids).imp fun hne slot hslot hother => ?_⟩
    · rw [List.nodup_flatMap]
      refine ⟨fun race _ => race.votes.keys_nodup.map fun _ _ h => (Slot.vote.inj h).2.2, ?_⟩
      refine (List.pairwise_map.1 (hnames ballot hballot)).imp fun hne slot hslot hother => ?_
      obtain ⟨_, _, rfl⟩ := List.mem_map.1 hslot
      obtain ⟨_, _, heq⟩ := List.mem_map.1 hother
      exact hne (Slot.vote.inj heq).2.1.symm
    · obtain ⟨_, _, hslot⟩ := List.mem_flatMap.1 hslot
      obtain ⟨_, _, rfl⟩ := List.mem_map.1 hslot
      obtain ⟨_, _, hother⟩ := List.mem_flatMap.1 hother
      obtain ⟨_, _, heq⟩ := List.mem_map.1 hother
      exact hne (Slot.vote.inj heq).1.symm
  · intro slot htotal hvote
    obtain ⟨_, _, htotal⟩ := List.mem_flatMap.1 htotal
    obtain ⟨_, _, rfl⟩ := List.mem_map.1 htotal
    obtain ⟨_, _, hvote⟩ := List.mem_flatMap.1 hvote
    obtain ⟨_, _, hvote⟩ := List.mem_flatMap.1 hvote
    obtain ⟨_, _, heq⟩ := List.mem_map.1 hvote
    cases heq

section Openers

variable {tally : ClosedTally}

/-- Opening the totals depends on how each of them is opened only. -/
theorem openTotals_congr {opener other : VoteOpener}
    (hopen : ∀ entry ∈ tally.totals.entries, ∀ total ∈ entry.2.entries,
      opener entry.1 total.1 total.2 = other entry.1 total.1 total.2) :
    tally.openTotals opener = tally.openTotals other :=
  Dict.mapM_congr fun entry hentry => Dict.mapM_congr (hopen entry hentry)

theorem openChallenged_congr {opener other : String → VoteOpener}
    (hopen : ∀ ballot ∈ tally.challenged, ∀ race ∈ ballot.races, ∀ entry ∈ race.votes.entries,
      opener ballot.id race.name entry.1 entry.2.ciphertext =
        other ballot.id race.name entry.1 entry.2.ciphertext) :
    tally.openChallenged opener = tally.openChallenged other := by
  have hballots : ∀ ballot ∈ tally.challenged,
      ballot.openWith (opener ballot.id) = ballot.openWith (other ballot.id) := by
    intro ballot hballot
    have hraces : ballot.races.mapM (·.openWith (opener ballot.id)) =
        ballot.races.mapM (·.openWith (other ballot.id)) := by
      refine mapM_congr fun race hrace => ?_
      have hvotes : (race.votes.mapM fun candidate (vote : SealedVote) => do
          let plaintext ← opener ballot.id race.name candidate vote.ciphertext
          pure (plaintext == 1)) = (race.votes.mapM fun candidate (vote : SealedVote) => do
          let plaintext ← other ballot.id race.name candidate vote.ciphertext
          pure (plaintext == 1)) :=
        Dict.mapM_congr fun entry hentry => by rw [hopen ballot hballot race hrace entry hentry]
      rw [SealedRace.openWith, SealedRace.openWith, hvotes]
    rw [SealedBallot.openWith, SealedBallot.openWith, hraces]
  have hopened : (tally.challenged.mapM fun ballot => do
      let plain ← ballot.openWith (opener ballot.id)
      pure (ballot.id, plain)) = (tally.challenged.mapM fun ballot => do
      let plain ← ballot.openWith (other ballot.id)
      pure (ballot.id, plain)) :=
    mapM_congr fun ballot hballot => by rw [hballots ballot hballot]
  rw [openChallenged, openChallenged, hopened]

/-- A tally opened slot by slot, the totals up to a bound and the votes up to one. -/
def openSlots (tally : ClosedTally) (opener : Slot → Ciphertext → Nat → Outcome Nat)
    (bound : Nat) : Outcome Report := do
  let races ← tally.openTotals fun race candidate total =>
    opener (.total race candidate) total bound
  let challenged ← tally.openChallenged fun ballot race candidate ciphertext =>
    opener (.vote ballot race candidate) ciphertext 1
  pure ⟨races, challenged⟩

theorem openSlots_congr {opener other : Slot → Ciphertext → Nat → Outcome Nat}
    (hopen : ∀ slot ciphertext, (slot, ciphertext) ∈ tally.slots →
      opener slot ciphertext = other slot ciphertext) (bound : Nat) :
    tally.openSlots opener bound = tally.openSlots other bound := by
  have htotals : tally.openTotals (fun race candidate total =>
      opener (.total race candidate) total bound) = tally.openTotals fun race candidate total =>
      other (.total race candidate) total bound :=
    openTotals_congr fun entry hentry total htotal =>
      congrFun (hopen _ _ (mem_slots_iff.2 (.inl ⟨entry, hentry, total, htotal, rfl, rfl⟩))) bound
  have hchallenged : tally.openChallenged (fun ballot race candidate ciphertext =>
      opener (.vote ballot race candidate) ciphertext 1) =
      tally.openChallenged fun ballot race candidate ciphertext =>
        other (.vote ballot race candidate) ciphertext 1 :=
    openChallenged_congr fun ballot hballot race hrace entry hentry =>
      congrFun (hopen _ _ (mem_slots_iff.2
        (.inr ⟨ballot, hballot, race, hrace, entry, hentry, rfl, rfl⟩))) 1
  rw [openSlots, openSlots, htotals, hchallenged]

end Openers

end ClosedTally

namespace DecryptionShare

variable {group : Group} {tally : ClosedTally}

/-- An authority contributes to every slot. -/
theorem exists_new_eq (hready : tally.IsReady group) {share : PrivateShare}
    (hgroup : share.group = group) : ∃ part, new share tally = .ok part ∧
      part.index = share.index ∧ ∀ slot ciphertext, (slot, ciphertext) ∈ tally.slots →
        part.parts.get? slot =
          some ⟨share.index, share.threshold, powMod ciphertext.pad share.value group.p⟩ := by
  let contribution (entry : Slot × Ciphertext) : Slot × PartialDecryption :=
    (entry.1, ⟨share.index, share.threshold, powMod entry.2.pad share.value group.p⟩)
  have hparts : tally.slots.mapM (fun entry => do
      let part ← Ciphertext.partialDecrypt share entry.2
      pure (entry.1, part)) = .ok (tally.slots.map contribution) := by
    refine mapM_eq_ok fun entry hentry => ?_
    have hformed := hready.formed entry hentry
    have hpad : entry.2.pad < group.p := Ciphertext.pad_lt_of_isWellFormed hformed
    rw [Ciphertext.partialDecrypt, hgroup, ensure_of _ hformed, PrivateShare.partialUnmask, hgroup,
      group.pow_eq_ok hpad]
    rfl
  have hnodup : ((tally.slots.map contribution).map (·.1)).Nodup := by
    rw [List.map_map]
    exact hready.nodup
  refine ⟨⟨share.index, Dict.ofList (tally.slots.map contribution)⟩, ?_, rfl, ?_⟩
  · change (tally.slots.mapM (fun entry => do
      let part ← Ciphertext.partialDecrypt share entry.2
      pure (entry.1, part)) >>= _) = _
    rw [hparts]
    rfl
  · intro slot ciphertext hmem
    exact (Dict.get?_ofList hnodup).2 (List.mem_map.2 ⟨_, hmem, rfl⟩)

/-- Shares of the decryption, one from each holder of a private share. -/
def AreFrom (parts : List DecryptionShare) (holders : List PrivateShare)
    (tally : ClosedTally) : Prop :=
  List.Forall₂ (fun share part => new share tally = .ok part) holders parts

theorem AreFrom.map_index {parts : List DecryptionShare} {holders : List PrivateShare}
    (hparts : AreFrom parts holders tally) : parts.map (·.index) = holders.map (·.index) := by
  refine (map_eq_map_of_forall₂ hparts fun share part hnew => ?_).symm
  obtain ⟨_, _, hpart⟩ := bind_eq_ok_iff.1 hnew
  cases hpart
  rfl

section Gather

variable (hready : tally.IsReady group) {holders : List PrivateShare}
  (hgroup : ∀ share ∈ holders, share.group = group) {parts : List DecryptionShare}
  (hparts : AreFrom parts holders tally) {slot : Slot} {ciphertext : Ciphertext}
  (hslot : (slot, ciphertext) ∈ tally.slots)

include hready hgroup hparts hslot

/-- No authority left a slot out. -/
theorem gather_eq {r : Nat} (hpad : group.powG r = ciphertext.pad) :
    gather parts slot = .ok (holders.map (PartialDecryption.ofShare group r)) := by
  rw [AreFrom] at hparts
  induction hparts with
  | nil => rfl
  | @cons share part _ _ hnew _ ih =>
    obtain ⟨hhead, htail⟩ := List.forall_mem_cons.1 hgroup
    obtain ⟨found, hfound, _, hget⟩ := exists_new_eq hready hhead
    obtain rfl := Except.ok.inj (hnew.symm.trans hfound)
    have hrest := ih htail
    rw [gather] at hrest ⊢
    rw [List.mapM_cons, hrest, hget slot ciphertext hslot, ← hpad, Group.powMod_powG]
    rfl

/-- The mask of a slot is what the holders' contributions combine to. -/
theorem decrypt_eq_bind {r : Nat} (hpad : group.powG r = ciphertext.pad) (bound : Nat) :
    decrypt parts group slot ciphertext bound = (do
      let mask ← PartialDecryption.combine group (holders.map (PartialDecryption.ofShare group r))
      let target ← group.div ciphertext.data mask
      Ciphertext.search group target bound) := by
  rw [decrypt, gather_eq hready hgroup hparts hslot hpad]
  change Ciphertext.decryptWithPartials group ciphertext _ bound = _
  rw [Ciphertext.decryptWithPartials, ensure_of _ (hready.formed _ hslot)]
  rfl

/-- If the holders' shares go together, a slot is decrypted with the key that they combine to. -/
theorem decrypt_eq (hsafe : group.IsSafe) (hne : holders ≠ []) {threshold : UInt64}
    {collected : Dict UInt64 Nat}
    (hcollect : holders.foldlM (DecryptionKey.collectShare group threshold) ∅ = .ok collected)
    (bound : Nat) : decrypt parts group slot ciphertext bound =
      (DecryptionKey.combine holders >>= fun key => ciphertext.decrypt key bound) := by
  have hformed : ciphertext.isWellFormed group = true := hready.formed _ hslot
  obtain ⟨r, d, rfl⟩ := Ciphertext.exists_eq_powG hsafe hformed
  rw [decrypt_eq_bind hready hgroup hparts hslot rfl,
    PartialDecryption.combine_ofShare hsafe hne hcollect]
  cases hcombine : DecryptionKey.combine holders with
  | error failure => rfl
  | ok key =>
    have hkey : key.group = group := DecryptionKey.group_of_combine hgroup hcombine
    have hmask : key.unmask (group.powG r) = .ok (group.powG (r * key.x)) := by
      rw [DecryptionKey.unmask, hkey, Group.pow_powG]
    change _ = Ciphertext.decrypt key ⟨group.powG r, group.powG d⟩ bound
    rw [Ciphertext.decrypt, hkey, ensure_of _ hformed, hmask]
    rfl

end Gather

end DecryptionShare

namespace Engine

theorem openTally_eq_openSlots (engine : Engine) (key : DecryptionKey) (bound : Nat) :
    engine.openTally key bound =
      engine.closedTally.openSlots (fun _ ciphertext => ciphertext.decrypt key) bound :=
  rfl

theorem openFromShares_eq_openSlots (engine : Engine) (parts : List DecryptionShare) :
    engine.openFromShares parts =
      engine.closedTally.openSlots (DecryptionShare.decrypt parts engine.election.group)
        engine.bound :=
  rfl

namespace Consistent

variable {engine : Engine} (hconsistent : engine.Consistent)

include hconsistent

/-- The votes of the challenged ballots and the totals are stored well-formed, and every one of them
    has a slot of its own. -/
theorem isReady : engine.closedTally.IsReady engine.election.group := by
  constructor
  · refine ClosedTally.nodup_slots hconsistent.challenged_nodup fun ballot hballot => ?_
    obtain ⟨nonce, hnonce⟩ := ballot?_of_mem_inState (hconsistent.mem_challenged.1 hballot)
    have hperm := (Election.checkBallot_eq_ok_iff.1 (hconsistent.fits nonce ballot hnonce)).1
    exact hperm.nodup_iff.2 engine.election.races.keys_nodup
  · rintro ⟨slot, ciphertext⟩ hmem
    refine hconsistent.wellFormed_of_stores ?_
    rcases ClosedTally.mem_slots_iff.1 hmem with ⟨entry, hentry, total, htotal, _, hciphertext⟩ |
      ⟨ballot, hballot, race, hrace, entry, hentry, _, hciphertext⟩
    · have hget : engine.closedTally.totals.get? entry.1 = some entry.2 :=
        Dict.get?_eq_some_iff.2 hentry
      rw [closedTally, Dict.get?_map] at hget
      obtain ⟨record, hrecord, hrecordTotals⟩ := Option.map_eq_some_iff.1 hget
      refine .inr ⟨entry.1, record, hrecord, Dict.mem_values_iff.2 ⟨total.1, ?_⟩⟩
      exact Dict.get?_eq_some_iff.2 (hrecordTotals ▸ hciphertext ▸ htotal)
    · obtain ⟨nonce, hnonce⟩ := ballot?_of_mem_inState (hconsistent.mem_challenged.1 hballot)
      exact .inl ⟨nonce, ballot, hnonce, race, hrace, entry, hentry, hciphertext⟩

variable (hsafe : engine.election.group.IsSafe)

include hsafe

/-- Every key that fits opens the tally in the same way. -/
theorem openTally_of_fits {key other : DecryptionKey} (hkey : key.fits engine.election.key = true)
    (hother : other.fits engine.election.key = true) (bound : Nat) :
    engine.openTally key bound = engine.openTally other bound := by
  obtain ⟨group, x⟩ := key
  obtain ⟨otherGroup, y⟩ := other
  simp only [DecryptionKey.fits, Bool.and_eq_true, beq_iff_eq] at hkey hother
  obtain ⟨rfl, hx⟩ := hkey
  obtain ⟨rfl, hy⟩ := hother
  have hexp : (x : ZMod engine.election.key.group.q) = y :=
    (Group.powG_eq_powG_iff hsafe).1 (hx.trans hy.symm)
  rw [openTally_eq_openSlots, openTally_eq_openSlots]
  exact ClosedTally.openSlots_congr (fun slot ciphertext hslot => funext fun bound =>
    Ciphertext.decrypt_congr hsafe hexp (hconsistent.isReady.formed _ hslot) bound) bound

section Holders

variable {holders : List PrivateShare}
  (hgroup : ∀ share ∈ holders, share.group = engine.election.group)
  {parts : List DecryptionShare}
  (hparts : DecryptionShare.AreFrom parts holders engine.closedTally)
  (hne : holders ≠ []) {threshold : UInt64} {collected : Dict UInt64 Nat}
  (hcollect : holders.foldlM (DecryptionKey.collectShare engine.election.group threshold) ∅ =
    .ok collected)

include hgroup hparts hne hcollect

/-- With shares that combine to a key the tally is opened as with that key. -/
theorem openFromShares_eq {key : DecryptionKey}
    (hcombine : DecryptionKey.combine holders = .ok key) :
    engine.openFromShares parts = engine.openTally key engine.bound := by
  rw [openFromShares_eq_openSlots, openTally_eq_openSlots]
  refine ClosedTally.openSlots_congr (fun slot ciphertext hslot => funext fun bound => ?_)
    engine.bound
  rw [DecryptionShare.decrypt_eq hconsistent.isReady hgroup hparts hslot hsafe hne
    hcollect, hcombine]
  rfl

/-- Shares that do not combine to a key fail at the first total, if there is one. -/
theorem openFromShares_eq_error (hraces : engine.election.races.entries ≠ []) {failure : Failure}
    (hcombine : DecryptionKey.combine holders = .error failure) :
    engine.openFromShares parts = .error failure := by
  have htotals : engine.closedTally.openTotals (fun race candidate total =>
      DecryptionShare.decrypt parts engine.election.group (.total race candidate) total
        engine.bound) = .error failure := by
    have hkeys : engine.closedTally.totals.keys = engine.election.races.keys :=
      (Dict.keys_map _ _).trans hconsistent.races
    -- There is a race, and every race has a candidate: so there is a total to fail at.
    refine Dict.mapM_eq_error (fun hnil => hraces ?_) fun entry hentry =>
      Dict.mapM_eq_error (fun hnil => ?_) fun total htotal => ?_
    · rw [Dict.keys, hnil, Dict.keys] at hkeys
      exact List.map_eq_nil_iff.1 hkeys.symm
    · have hget : engine.closedTally.totals.get? entry.1 = some entry.2 :=
        Dict.get?_eq_some_iff.2 hentry
      obtain ⟨race, hrace⟩ := Dict.mem_keys_iff.1 (hkeys ▸ Dict.mem_keys_iff.2 ⟨_, hget⟩)
      obtain ⟨record, hrecord, hcounts⟩ := hconsistent.counted entry.1 race hrace
      rw [closedTally, Dict.get?_map, hrecord, Option.map_some, Option.some.injEq] at hget
      have hsize : 0 < race.candidates.size :=
        (engine.election.races_valid _ (Dict.get?_eq_some_iff.1 hrace)).1
      rw [← Dict.length_keys, ← hcounts.candidates, hget, Dict.keys, hnil] at hsize
      cases hsize
    · have hslot := ClosedTally.mem_slots_iff.2 (.inl ⟨entry, hentry, total, htotal, rfl, rfl⟩)
      dsimp only
      rw [DecryptionShare.decrypt_eq hconsistent.isReady hgroup hparts hslot hsafe hne
        hcollect, hcombine]
      rfl
  rw [openFromShares, htotals]
  rfl

/-- With shares that combine to a key that fits, what is reported is what any such key reports. -/
theorem reportFromShares_eq_report (hphase : engine.phase ≠ .reported) {combined : DecryptionKey}
    (hcombine : DecryptionKey.combine holders = .ok combined)
    (hcombinedFits : combined.fits engine.election.key = true) {key : DecryptionKey}
    (hfits : key.fits engine.election.key = true) :
    reportFromShares parts engine = report key engine := by
  rw [reportFromShares_apply, report_apply, reportWithBound_apply, if_neg hphase, if_neg hphase,
    hconsistent.openFromShares_eq hsafe hgroup hparts hne hcollect hcombine,
    openWithKey_of_fits hfits, hconsistent.openTally_of_fits hsafe hcombinedFits hfits]

/-- Shares that do not combine to a key are refused by a closed engine, which stays as it is. -/
theorem reportFromShares_eq_error (hclosed : engine.phase = .closed)
    (hraces : engine.election.races.entries ≠ []) {failure : Failure}
    (hcombine : DecryptionKey.combine holders = .error failure) :
    reportFromShares parts engine = (.error failure, engine) := by
  have hphase : engine.phase ≠ .reported := by
    rw [hclosed]
    exact Phase.noConfusion
  have hunchanged : ({ engine with phase := .closed } : Engine) = engine := by rw [← hclosed]
  rw [reportFromShares_apply, if_neg hphase, hconsistent.openFromShares_eq_error hsafe hgroup hparts
    hne hcollect hraces hcombine, attempt, hunchanged]

end Holders

end Consistent

end Engine

end SecretBallot
