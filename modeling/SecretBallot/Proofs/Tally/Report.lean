import Mathlib
import SecretBallot.Proofs.Ballot.Encryption
import SecretBallot.Proofs.Tally.Consistent

namespace SecretBallot

/-- Whether a ballot selects a candidate of a race. -/
def PlainBallot.selects (ballot : PlainBallot) (race candidate : String) : Bool :=
  match ballot.races.find? (·.name == race) with
  | some found => found.votes.get? candidate == some true
  | none => false

/-- What a ballot opens to is read off vote by vote. -/
theorem SealedBallot.selects_opened (ballot : SealedBallot) (key : DecryptionKey)
    (race candidate : String) : (ballot.opened key).selects race candidate =
      (ballot.ciphertext? race candidate).any fun ciphertext => key.plaintext ciphertext == 1 := by
  have hfind : (ballot.opened key).races.find? (·.name == race) =
      (ballot.race? race).map (·.opened key) := List.find?_map ..
  rw [PlainBallot.selects, hfind, ciphertext?]
  cases ballot.race? race with
  | none => rfl
  | some found =>
    change ((found.opened key).votes.get? candidate == some true) = _
    rw [SealedRace.opened, Dict.get?_map]
    change _ = (do let vote ← found.votes.get? candidate; pure vote.ciphertext).any _
    cases found.votes.get? candidate with
    | none => rfl
    | some vote =>
      change (some (key.plaintext vote.ciphertext == 1) == some true) =
        (key.plaintext vote.ciphertext == 1)
      cases key.plaintext vote.ciphertext == 1 <;> rfl

theorem SealedBallot.mem_votes_of_ciphertext? {ballot : SealedBallot} {race candidate : String}
    {ciphertext : Ciphertext} (hvote : ballot.ciphertext? race candidate = some ciphertext) :
    ∃ found ∈ ballot.races, ∃ entry ∈ found.votes.entries, entry.2.ciphertext = ciphertext := by
  obtain ⟨found, vote, hrace, hget, hciphertext⟩ := ciphertext?_eq_some_iff.1 hvote
  exact ⟨found, List.mem_of_find?_eq_some hrace, _, Dict.get?_eq_some_iff.1 hget, hciphertext⟩

namespace Engine

/-- A ciphertext is a vote on a recorded ballot or the total of a candidate. -/
def Stores (engine : Engine) (ciphertext : Ciphertext) : Prop :=
  (∃ nonce ballot, engine.ballot? nonce = some ballot ∧ ∃ race ∈ ballot.races,
    ∃ entry ∈ race.votes.entries, entry.2.ciphertext = ciphertext) ∨
  ∃ name record, engine.records.get? name = some record ∧ ciphertext ∈ record.totals.values

/-- The confirmed votes for a candidate. -/
def confirmedVotes (engine : Engine) (race candidate : String) : List Ciphertext :=
  (engine.inState .confirmed).filterMap (·.ciphertext? race candidate)

/-- What the confirmed votes for a candidate open to, added up modulo `q`. -/
def count (engine : Engine) (key : DecryptionKey) (race candidate : String) : Nat :=
  ((engine.confirmedVotes race candidate).map key.plaintext).sum % key.group.q

/-- The count of every candidate of every race of the election. -/
def counts (engine : Engine) (key : DecryptionKey) : Dict String (Dict String Nat) :=
  engine.election.races.map fun name race =>
    race.candidates.map fun candidate _ => engine.count key name candidate

/-- No count exceeds a bound. -/
def CountsWithin (engine : Engine) (key : DecryptionKey) (bound : Nat) : Prop :=
  ∀ name race, engine.election.races.get? name = some race →
    ∀ candidate ∈ race.candidates.keys, engine.count key name candidate ≤ bound

/-- Every vote of every challenged ballot opens to zero or one. -/
def ChallengedOpen (engine : Engine) (key : DecryptionKey) : Prop :=
  ∀ ballot ∈ engine.inState .challenged, ballot.OpensToBits key

/-- What the challenged ballots open to, by id. -/
def openedChallenged (engine : Engine) (key : DecryptionKey) : Dict String PlainBallot :=
  Dict.ofList (engine.challenged.map fun ballot => (ballot.id, ballot.opened key))

/-- What a report is made of if it is opened with a key, whether or not the key fits. -/
def openTally (engine : Engine) (key : DecryptionKey) (bound : Nat) : Outcome Report := do
  let races ← engine.closedTally.openTotals fun _ _ total => total.decrypt key bound
  let challenged ← engine.closedTally.openChallenged fun _ _ _ ciphertext =>
    ciphertext.decrypt key 1
  pure ⟨races, challenged⟩

theorem openWithKey_of_fits {engine : Engine} {key : DecryptionKey}
    (hfits : key.fits engine.election.key = true) (bound : Nat) :
    engine.openWithKey key bound = engine.openTally key bound := by
  rw [openWithKey, ensure_of _ hfits]
  rfl

namespace Consistent

variable {engine : Engine} (hconsistent : engine.Consistent)

include hconsistent

/-- The challenged ballots, listed by id, are those in that state. -/
theorem mem_challenged {ballot : SealedBallot} :
    ballot ∈ engine.challenged ↔ ballot ∈ engine.inState .challenged := by
  rw [challenged, Dict.mem_values_iff]
  simp only [Dict.get?_ofList (hconsistent.challenged_ids_nodup), List.mem_map, Prod.mk.injEq]
  constructor
  · rintro ⟨_, found, hfound, _, rfl⟩
    exact hfound
  · intro hmem
    exact ⟨_, ballot, hmem, rfl, rfl⟩

theorem challenged_nodup : ((engine.challenged.map (·.id))).Nodup := by
  let byId := Dict.ofList ((engine.inState .challenged).map fun ballot => (ballot.id, ballot))
  have hids : byId.values.map (·.id) = byId.keys := by
    rw [Dict.values, Dict.keys, List.map_map]
    refine List.map_congr_left fun entry hentry => ?_
    have hget : byId.get? entry.1 = some entry.2 := Dict.get?_eq_some_iff.2 hentry
    have hmem := (Dict.get?_ofList hconsistent.challenged_ids_nodup).1 hget
    obtain ⟨ballot, _, hballot⟩ := List.mem_map.1 hmem
    obtain ⟨hid, hsame⟩ := Prod.mk.inj hballot
    change entry.2.id = entry.1
    rw [← hsame, hid]
  have hnodup : (byId.values.map (·.id)).Nodup := hids ▸ byId.keys_nodup
  exact hnodup

/-- An opened challenged ballot is found under its id. -/
theorem get?_openedChallenged {key : DecryptionKey} {id : String} {plain : PlainBallot} :
    (engine.openedChallenged key).get? id = some plain ↔
      ∃ ballot ∈ engine.inState .challenged, ballot.id = id ∧ plain = ballot.opened key := by
  have hkeys : ((engine.challenged.map fun ballot =>
      (ballot.id, ballot.opened key)).map (·.1)).Nodup := by
    rw [List.map_map]
    exact hconsistent.challenged_nodup
  rw [openedChallenged, Dict.get?_ofList hkeys]
  simp only [List.mem_map, Prod.mk.injEq, hconsistent.mem_challenged, eq_comm (a := plain)]

/-- Every vote of a recorded ballot is well-formed, as its proof verified. -/
theorem wellFormed {nonce : Bytes} {ballot : SealedBallot}
    (hballot : engine.ballot? nonce = some ballot) : ballot.WellFormed engine.election.group :=
  SealedBallot.wellFormed_of_verify (hconsistent.proved nonce ballot hballot)

theorem wellFormed_confirmedVotes {race candidate : String} :
    ∀ ciphertext ∈ engine.confirmedVotes race candidate,
      ciphertext.isWellFormed engine.election.group = true := by
  intro ciphertext hmem
  obtain ⟨ballot, hballot, hvote⟩ := List.mem_filterMap.1 hmem
  obtain ⟨nonce, hnonce⟩ := ballot?_of_mem_inState hballot
  obtain ⟨found, hfound, entry, hentry, rfl⟩ := SealedBallot.mem_votes_of_ciphertext? hvote
  exact hconsistent.wellFormed hnonce found hfound entry hentry

/-- The totals of a race are the products of the confirmed votes. -/
theorem get?_totals {name candidate : String} {record : TallyRecord}
    (hrecord : engine.records.get? name = some record) {total : Ciphertext} :
    record.totals.get? candidate = some total ↔
      ∃ race, engine.election.races.get? name = some race ∧ candidate ∈ race.candidates.keys ∧
        total = Ciphertext.combineAll engine.election.group
          (engine.confirmedVotes name candidate) := by
  have hname : name ∈ engine.election.races.keys :=
    hconsistent.races ▸ Dict.mem_keys_iff.2 ⟨record, hrecord⟩
  obtain ⟨race, hrace⟩ := Dict.mem_keys_iff.1 hname
  obtain ⟨found, hfound, hcounts⟩ := hconsistent.counted name race hrace
  obtain rfl : found = record := Option.some.inj (hfound.symm.trans hrecord)
  constructor
  · intro htotal
    have hcandidate : candidate ∈ race.candidates.keys :=
      hcounts.candidates ▸ Dict.mem_keys_iff.2 ⟨total, htotal⟩
    rw [hcounts.totals candidate hcandidate, Option.some.injEq] at htotal
    exact ⟨race, hrace, hcandidate, htotal.symm⟩
  · rintro ⟨definition, hdefinition, hcandidate, rfl⟩
    obtain rfl : race = definition := Option.some.inj (hrace.symm.trans hdefinition)
    exact hcounts.totals candidate hcandidate

theorem wellFormed_of_stores {ciphertext : Ciphertext} (hstores : engine.Stores ciphertext) :
    ciphertext.isWellFormed engine.election.group = true := by
  rcases hstores with ⟨nonce, ballot, hballot, race, hrace, entry, hentry, rfl⟩ |
    ⟨name, record, hrecord, hmem⟩
  · exact hconsistent.wellFormed hballot race hrace entry hentry
  · obtain ⟨candidate, htotal⟩ := Dict.mem_values_iff.1 hmem
    obtain ⟨_, _, _, rfl⟩ := (hconsistent.get?_totals hrecord).1 htotal
    exact Ciphertext.isWellFormed_combineAll hconsistent.wellFormed_confirmedVotes

section Key

variable {key : DecryptionKey} (hsafe : key.group.IsSafe)
  (hgroup : key.group = engine.election.group)

include hsafe hgroup

/-- A total opens to the count of its candidate. -/
theorem plaintext_total {name candidate : String} {record : TallyRecord} {total : Ciphertext}
    (hrecord : engine.records.get? name = some record)
    (htotal : record.totals.get? candidate = some total) :
    total.isWellFormed key.group = true ∧
      key.plaintext total = engine.count key name candidate := by
  obtain ⟨_, _, _, rfl⟩ := (hconsistent.get?_totals hrecord).1 htotal
  have hformed : ∀ ciphertext ∈ engine.confirmedVotes name candidate,
      ciphertext.isWellFormed key.group = true := hgroup ▸ hconsistent.wellFormed_confirmedVotes
  rw [← hgroup]
  exact ⟨Ciphertext.isWellFormed_combineAll hformed,
    DecryptionKey.plaintext_combineAll hsafe hformed⟩

theorem map_plaintext_totals : (engine.closedTally.totals.map fun _ totals =>
    totals.map fun _ total => key.plaintext total) = engine.counts key := by
  refine Dict.ext_get? fun name => ?_
  rw [closedTally, Dict.get?_map, Dict.get?_map, Option.map_map, counts, Dict.get?_map]
  cases hrace : engine.election.races.get? name with
  | none => rw [hconsistent.get?_records_eq_none hrace, Option.map_none, Option.map_none]
  | some race =>
    obtain ⟨record, hrecord, _⟩ := hconsistent.counted name race hrace
    rw [hrecord, Option.map_some, Option.map_some, Option.some.injEq]
    refine Dict.ext_get? fun candidate => ?_
    change (record.totals.map fun _ total => key.plaintext total).get? candidate = _
    rw [Dict.get?_map, Dict.get?_map]
    cases hcandidate : race.candidates.get? candidate with
    | none =>
      have habsent : record.totals.get? candidate = none := by
        refine Option.eq_none_iff_forall_ne_some.2 fun total htotal => ?_
        obtain ⟨found, hfound, hmem, _⟩ := (hconsistent.get?_totals hrecord).1 htotal
        obtain rfl : race = found := Option.some.inj (hrace.symm.trans hfound)
        obtain ⟨_, hget⟩ := Dict.mem_keys_iff.1 hmem
        rw [hcandidate] at hget
        cases hget
      rw [habsent, Option.map_none, Option.map_none]
    | some _ =>
      have htotal := (hconsistent.get?_totals hrecord).2
        ⟨race, hrace, Dict.mem_keys_iff.2 ⟨_, hcandidate⟩, rfl⟩
      rw [htotal, Option.map_some, Option.map_some,
        (hconsistent.plaintext_total hsafe hgroup hrecord htotal).2]

theorem countsWithin_iff (bound : Nat) : engine.CountsWithin key bound ↔
    ∀ entry ∈ engine.closedTally.totals.entries, ∀ total ∈ entry.2.entries,
      key.plaintext total.2 ≤ bound := by
  constructor
  · intro hwithin entry hentry total htotal
    have hget : engine.closedTally.totals.get? entry.1 = some entry.2 :=
      Dict.get?_eq_some_iff.2 hentry
    rw [closedTally, Dict.get?_map] at hget
    obtain ⟨record, hrecord, htotals⟩ := Option.map_eq_some_iff.1 hget
    have htotal : record.totals.get? total.1 = some total.2 :=
      Dict.get?_eq_some_iff.2 (htotals ▸ htotal)
    obtain ⟨race, hrace, hcandidate, _⟩ := (hconsistent.get?_totals hrecord).1 htotal
    rw [(hconsistent.plaintext_total hsafe hgroup hrecord htotal).2]
    exact hwithin entry.1 race hrace total.1 hcandidate
  · intro hall name race hrace candidate hcandidate
    obtain ⟨record, hrecord, _⟩ := hconsistent.counted name race hrace
    have htotal := (hconsistent.get?_totals hrecord).2 ⟨race, hrace, hcandidate, rfl⟩
    have hget : engine.closedTally.totals.get? name = some record.totals := by
      rw [closedTally, Dict.get?_map, hrecord, Option.map_some]
    have hle := hall _ (Dict.get?_eq_some_iff.1 hget) _ (Dict.get?_eq_some_iff.1 htotal)
    rwa [(hconsistent.plaintext_total hsafe hgroup hrecord htotal).2] at hle

/-- Decrypting the totals gives the counts, if all are within the bound. -/
theorem openTotals_eq (bound : Nat) [Decidable (engine.CountsWithin key bound)] :
    engine.closedTally.openTotals (fun _ _ total => total.decrypt key bound) =
      if engine.CountsWithin key bound then .ok (engine.counts key)
      else .error (.refused (.searchExhausted bound)) := by
  have hrace : ∀ name totals, engine.closedTally.totals.get? name = some totals →
      totals.mapM (fun _ total => Ciphertext.decrypt key total bound) =
        if ∀ total ∈ totals.entries, key.plaintext total.2 ≤ bound then
          .ok (totals.map fun _ total => key.plaintext total)
        else .error (.refused (.searchExhausted bound)) := by
    intro name totals htotals
    rw [closedTally, Dict.get?_map] at htotals
    obtain ⟨record, hrecord, rfl⟩ := Option.map_eq_some_iff.1 htotals
    refine Dict.mapM_eq_ite (fun _ total => key.plaintext total ≤ bound) ?_
    intro candidate total htotal
    exact Ciphertext.decrypt_eq hsafe
      (hconsistent.plaintext_total hsafe hgroup hrecord htotal).1 bound
  have hall := Dict.mapM_eq_ite
    (fun _ (totals : Dict String Ciphertext) =>
      ∀ total ∈ totals.entries, key.plaintext total.2 ≤ bound) hrace
  rw [hconsistent.map_plaintext_totals hsafe hgroup] at hall
  have hiff := hconsistent.countsWithin_iff hsafe hgroup bound
  rw [ClosedTally.openTotals, hall]
  by_cases hwithin : engine.CountsWithin key bound
  · rw [if_pos (hiff.1 hwithin), if_pos hwithin]
  · rw [if_neg (mt hiff.2 hwithin), if_neg hwithin]

/-- Decrypting the challenged ballots opens them, if every vote on them is zero or one. -/
theorem openChallenged_eq [Decidable (engine.ChallengedOpen key)] :
    engine.closedTally.openChallenged (fun _ _ _ ciphertext => ciphertext.decrypt key 1) =
      if engine.ChallengedOpen key then .ok (engine.openedChallenged key)
      else .error (.refused (.searchExhausted 1)) := by
  have hballots : engine.challenged.mapM (fun ballot => do
      let plain ← ballot.openWith fun _ _ ciphertext => ciphertext.decrypt key 1
      pure (ballot.id, plain)) =
      if ∀ ballot ∈ engine.challenged, ballot.OpensToBits key then
        .ok (engine.challenged.map fun ballot => (ballot.id, ballot.opened key))
      else .error (.refused (.searchExhausted 1)) := by
    refine mapM_eq_ite (SealedBallot.OpensToBits · key) fun ballot hballot => ?_
    obtain ⟨nonce, hnonce⟩ := ballot?_of_mem_inState (hconsistent.mem_challenged.1 hballot)
    rw [SealedBallot.openWith_decrypt_eq hsafe (hgroup ▸ hconsistent.wellFormed hnonce)]
    split <;> rfl
  have hiff : (∀ ballot ∈ engine.challenged, ballot.OpensToBits key) ↔
      engine.ChallengedOpen key := by
    simp only [hconsistent.mem_challenged, ChallengedOpen]
  rw [ClosedTally.openChallenged]
  change (engine.challenged.mapM _ >>= _) = _
  rw [hballots]
  by_cases hopen : engine.ChallengedOpen key
  · rw [if_pos (hiff.2 hopen), if_pos hopen]
    rfl
  · rw [if_neg (mt hiff.1 hopen), if_neg hopen]
    rfl

/-- How opening a tally with a key of its group ends. -/
theorem openTally_eq (bound : Nat)
    [Decidable (engine.CountsWithin key bound)] [Decidable (engine.ChallengedOpen key)] :
    engine.openTally key bound =
      if engine.CountsWithin key bound then
        if engine.ChallengedOpen key then
          .ok ⟨engine.counts key, engine.openedChallenged key⟩
        else .error (.refused (.searchExhausted 1))
      else .error (.refused (.searchExhausted bound)) := by
  rw [openTally, hconsistent.openTotals_eq hsafe hgroup bound]
  by_cases hwithin : engine.CountsWithin key bound
  case neg =>
    rw [if_neg hwithin, if_neg hwithin]
    rfl
  rw [if_pos hwithin, if_pos hwithin]
  change (engine.closedTally.openChallenged _ >>= _) = _
  rw [hconsistent.openChallenged_eq hsafe hgroup]
  by_cases hopen : engine.ChallengedOpen key
  · rw [if_pos hopen, if_pos hopen]
    rfl
  · rw [if_neg hopen, if_neg hopen]
    rfl

/-- How a report with the election key ends. -/
theorem openWithKey_eq (hfits : key.fits engine.election.key = true) (bound : Nat)
    [Decidable (engine.CountsWithin key bound)] [Decidable (engine.ChallengedOpen key)] :
    engine.openWithKey key bound =
      if engine.CountsWithin key bound then
        if engine.ChallengedOpen key then
          .ok ⟨engine.counts key, engine.openedChallenged key⟩
        else .error (.refused (.searchExhausted 1))
      else .error (.refused (.searchExhausted bound)) := by
  rw [openWithKey_of_fits hfits, hconsistent.openTally_eq hsafe hgroup]

theorem audit_eq (hfits : key.fits engine.election.key = true)
    [Decidable (engine.ChallengedOpen key)] :
    engine.audit key = if engine.ChallengedOpen key then .ok (engine.openedChallenged key)
      else .error (.refused (.searchExhausted 1)) := by
  rw [audit, ensure_of _ hfits]
  exact hconsistent.openChallenged_eq hsafe hgroup

end Key

end Consistent

/-- For ballots that were sealed from plain ones the counts count ballots. -/
theorem count_of_encrypts {engine : Engine} {key : DecryptionKey} (hsafe : key.group.IsSafe)
    (hfits : key.fits engine.election.key = true)
    {plain : SealedBallot → PlainBallot}
    (hplain : ∀ nonce ballot, engine.ballot? nonce = some ballot →
      ballot.Encrypts engine.election.key (plain ballot)) (race candidate : String) :
    engine.count key race candidate =
      ((engine.inState .confirmed).countP fun ballot => (plain ballot).selects race candidate) %
        key.group.q := by
  have hvotes : ∀ ballot ∈ engine.inState .confirmed,
      ballot.OpensToBits key ∧ ballot.opened key = plain ballot := by
    intro ballot hballot
    obtain ⟨nonce, hnonce⟩ := ballot?_of_mem_inState hballot
    exact SealedBallot.opened_eq hsafe hfits (hplain nonce ballot hnonce)
  rw [count, confirmedVotes]
  congr 1
  generalize engine.inState .confirmed = ballots at hvotes
  induction ballots with
  | nil => rfl
  | cons ballot rest ih =>
    obtain ⟨⟨hbits, hopened⟩, hrest⟩ := List.forall_mem_cons.1 hvotes
    have hselects := ballot.selects_opened key race candidate
    rw [hopened] at hselects
    rw [List.countP_cons, ← ih hrest, hselects]
    cases hvote : ballot.ciphertext? race candidate with
    | none =>
      simp only [List.filterMap_cons, hvote, Option.any_none, Bool.false_eq_true, if_false,
        add_zero]
    | some ciphertext =>
      obtain ⟨found, hfound, entry, hentry, hciphertext⟩ :=
        SealedBallot.mem_votes_of_ciphertext? hvote
      have hle : key.plaintext ciphertext ≤ 1 := hciphertext ▸ hbits found hfound entry hentry
      simp only [List.filterMap_cons, hvote, List.map_cons, List.sum_cons, Option.any_some,
        beq_iff_eq]
      by_cases hone : key.plaintext ciphertext = 1
      · rw [if_pos hone, hone, Nat.add_comm]
      · have hzero : key.plaintext ciphertext = 0 := by omega
        rw [if_neg hone, hzero, Nat.zero_add, Nat.add_zero]

/-- A report in any state that a run can reach, unless there has been one. Every stored ciphertext
    opens to one plaintext; the report gives the counts and the opened ballots, and it fails only
    where a count exceeds the bound or a challenged vote is neither zero nor one. For ballots that
    were sealed from plain ones, the counts and the opened ballots are those of the plain ones. -/
theorem report_correct {election : Election} (hsafe : election.group.IsSafe) (start : Nat)
    (calls : List Call) {key : DecryptionKey} (hfits : key.fits election.key = true) (bound : Nat)
    (hphase : ((new election start).afterAll calls).phase ≠ .reported) :
    let engine := (new election start).afterAll calls
    let result := (reportWithBound key bound engine).1
    (∀ ciphertext, engine.Stores ciphertext →
      ∀ m, key.Opens ciphertext m ↔ m = key.plaintext ciphertext) ∧
    (engine.CountsWithin key bound → engine.ChallengedOpen key →
      result = .ok ⟨engine.counts key, engine.openedChallenged key⟩ ∧
        engine.audit key = .ok (engine.openedChallenged key)) ∧
    (¬ engine.CountsWithin key bound → result = .error (.refused (.searchExhausted bound))) ∧
    (engine.CountsWithin key bound → ¬ engine.ChallengedOpen key →
      result = .error (.refused (.searchExhausted 1))) ∧
    (∀ id plain, (engine.openedChallenged key).get? id = some plain ↔
      ∃ ballot ∈ engine.inState .challenged, ballot.id = id ∧ plain = ballot.opened key) ∧
    ∀ plain : SealedBallot → PlainBallot,
      (∀ nonce ballot, engine.ballot? nonce = some ballot → ∃ supply witness rest,
        (plain ballot).seal election.key nonce supply = (.ok (ballot, witness), rest)) →
      (∀ race candidate, engine.count key race candidate =
        ((engine.inState .confirmed).countP fun ballot => (plain ballot).selects race candidate) %
          election.group.q) ∧
      engine.ChallengedOpen key ∧
      ∀ ballot ∈ engine.inState .challenged, ballot.opened key = plain ballot := by
  classical
  intro engine result
  obtain ⟨hconsistent, helection⟩ := consistent_afterAll election start calls
  change engine.Consistent at hconsistent
  change engine.election = election at helection
  change engine.phase ≠ .reported at hphase
  have hresult : result = (engine.attempt (engine.openWithKey key bound)).1 := by
    change (reportWithBound key bound engine).1 = _
    rw [reportWithBound_apply, if_neg hphase]
  clear_value engine result
  subst helection
  have hgroup : key.group = engine.election.group := by
    rw [DecryptionKey.fits, Bool.and_eq_true, beq_iff_eq] at hfits
    exact hfits.1
  have hkey : key.group.IsSafe := hgroup ▸ hsafe
  rw [hconsistent.openWithKey_eq hkey hgroup hfits] at hresult
  refine ⟨?_, ?_, ?_, ?_, fun id plain => hconsistent.get?_openedChallenged, ?_⟩
  · intro ciphertext hstores m
    have hformed : ciphertext.isWellFormed key.group = true :=
      hgroup ▸ hconsistent.wellFormed_of_stores hstores
    constructor
    · intro hopens
      exact (DecryptionKey.plaintext_eq hkey hformed hopens).symm
    · rintro rfl
      exact DecryptionKey.opens_plaintext hkey hformed
  · intro hwithin hopen
    rw [hresult, if_pos hwithin, if_pos hopen, hconsistent.audit_eq hkey hgroup hfits,
      if_pos hopen]
    exact ⟨rfl, rfl⟩
  · intro hwithin
    rw [hresult, if_neg hwithin]
    rfl
  · intro hwithin hopen
    rw [hresult, if_pos hwithin, if_neg hopen]
    rfl
  · intro plain hsealed
    have hplain : ∀ nonce ballot, engine.ballot? nonce = some ballot →
        ballot.Encrypts engine.election.key (plain ballot) := by
      intro nonce ballot hballot
      obtain ⟨supply, witness, rest, hseal⟩ := hsealed nonce ballot hballot
      exact PlainBallot.encrypts_of_seal hseal
    have hopened : ∀ ballot ∈ engine.inState .challenged,
        ballot.OpensToBits key ∧ ballot.opened key = plain ballot := by
      intro ballot hballot
      obtain ⟨nonce, hnonce⟩ := ballot?_of_mem_inState hballot
      exact SealedBallot.opened_eq hkey hfits (hplain nonce ballot hnonce)
    refine ⟨?_, fun ballot hballot => (hopened ballot hballot).1,
      fun ballot hballot => (hopened ballot hballot).2⟩
    intro race candidate
    rw [count_of_encrypts hkey hfits hplain, hgroup]

/-- A ballot that was sealed for an election is admitted while the engine is open and holds neither
    its nonce nor its id. -/
theorem admits_of_seal {engine : Engine} {election : Election} {plain : PlainBallot}
    (hfilled : plain.FillsIn election) {nonce supply rest : Bytes} {ballot : SealedBallot}
    {witness : Witness}
    (hseal : plain.seal election.key nonce supply = (.ok (ballot, witness), rest))
    (helection : engine.election = election) (hopened : engine.phase = .opened)
    (hnonce : engine.byNonce.get? nonce = none) (hid : engine.byId.get? plain.id = none) :
    engine.Admits ballot nonce := by
  obtain ⟨hproves, _⟩ := PlainBallot.proves_of_seal hseal
  exact ⟨hopened, hproves.nonce_eq, helection ▸ hproves.checkBallot hfilled,
    helection ▸ hproves.verify, hnonce, hproves.id_eq ▸ hid⟩

/-- One race between two candidates, with a key of the group of order 11. -/
def smallElection : Election where
  key := ⟨Group.small, 2, 3, by decide, by decide⟩
  races := Dict.ofList [("mayor", ⟨1, KeySet.ofKeys ["ann", "ben"]⟩)]
  races_valid entry hentry := by
    obtain rfl := List.mem_singleton.1 hentry
    exact ⟨by decide, by decide⟩

/-- A vote for the first candidate. -/
def smallPlain : PlainBallot :=
  ⟨"ballot", [⟨"mayor", 1, Dict.ofList [("ann", true), ("ben", false)]⟩]⟩

def smallBallot : SealedBallot :=
  ⟨"ballot", [7], [⟨"mayor", 1, Dict.ofList [("ann", ⟨⟨4, 12⟩, ⟨[4, 3], [5, 6]⟩⟩),
    ("ben", ⟨⟨16, 9⟩, ⟨[1, 7], [8, 8]⟩⟩)], ⟨0, 9⟩⟩]⟩

/-- A vote for the second candidate, made for a challenge. -/
def testPlain : PlainBallot :=
  ⟨"test", [⟨"mayor", 1, Dict.ofList [("ann", false), ("ben", true)]⟩]⟩

def testBallot : SealedBallot :=
  ⟨"test", [8], [⟨"mayor", 1, Dict.ofList [("ann", ⟨⟨18, 4⟩, ⟨[7, 6], [4, 7]⟩⟩),
    ("ben", ⟨⟨3, 2⟩, ⟨[9, 10], [1, 4]⟩⟩)], ⟨9, 10⟩⟩]⟩

theorem fillsIn_smallElection (id : String) {race : PlainRace} (hname : race.name = "mayor")
    (hfills : race.FillsIn ⟨1, KeySet.ofKeys ["ann", "ben"]⟩) :
    PlainBallot.FillsIn ⟨id, [race]⟩ smallElection := by
  refine ⟨?_, fun found hfound => ?_⟩
  · rw [List.map_singleton, hname]
    exact .refl _
  · obtain rfl := List.mem_singleton.1 hfound
    rw [hname]
    exact ⟨_, rfl, hfills⟩

theorem smallPlain_fillsIn : smallPlain.FillsIn smallElection :=
  fillsIn_smallElection "ballot" rfl ⟨rfl, by decide, by decide⟩

theorem testPlain_fillsIn : testPlain.FillsIn smallElection :=
  fillsIn_smallElection "test" rfl ⟨rfl, by decide, by decide⟩

theorem smallBallot_sealed : ∃ witness rest,
    smallPlain.seal smallElection.key [7] [1, 2, 3, 4, 5, 6, 7, 8, 9] =
      (.ok (smallBallot, witness), rest) := by
  let openings : Dict String Opening := Dict.ofList [("ann", ⟨true, 1⟩), ("ben", ⟨false, 2⟩)]
  have hvalue : (smallPlain.seal smallElection.key [7] [1, 2, 3, 4, 5, 6, 7, 8, 9]).1 =
      .ok (smallBallot, ⟨Dict.ofList [("mayor", openings)]⟩) := by decide +kernel
  exact ⟨_, Action.exists_reached hvalue⟩

theorem testBallot_sealed : ∃ witness rest,
    testPlain.seal smallElection.key [8] [3, 4, 5, 6, 7, 8, 9, 1, 2] =
      (.ok (testBallot, witness), rest) := by
  let openings : Dict String Opening := Dict.ofList [("ann", ⟨false, 3⟩), ("ben", ⟨true, 4⟩)]
  have hvalue : (testPlain.seal smallElection.key [8] [3, 4, 5, 6, 7, 8, 9, 1, 2]).1 =
      .ok (testBallot, ⟨Dict.ofList [("mayor", openings)]⟩) := by decide +kernel
  exact ⟨_, Action.exists_reached hvalue⟩

theorem smallBallot_admitted (bound : Nat) : (new smallElection bound).Admits smallBallot [7] := by
  obtain ⟨_, _, hseal⟩ := smallBallot_sealed
  exact admits_of_seal smallPlain_fillsIn hseal rfl rfl rfl rfl

/-- One ballot is recorded and confirmed, the other one recorded and challenged. -/
def smallCalls : List Call :=
  [.record smallBallot [7], .confirm [7], .record testBallot [8], .challenge [8]]

/-- The engine of the small election after these calls. -/
def smallEngine (bound : Nat) : Engine :=
  ((((new smallElection bound).withBallot smallBallot [7]).withConfirmed smallBallot
    [7]).withBallot testBallot [8]).move [8] .challenged

theorem afterAll_smallCalls (bound : Nat) :
    (new smallElection bound).afterAll smallCalls = smallEngine bound := by
  obtain ⟨_, _, hseal⟩ := testBallot_sealed
  exact afterAll_counted_challenged (smallBallot_admitted bound)
    (admits_of_seal testPlain_fillsIn hseal rfl rfl rfl rfl)

/-- The plain ballot behind each of the two. -/
def smallPlainOf (ballot : SealedBallot) : PlainBallot :=
  if ballot.id = "ballot" then smallPlain else testPlain

theorem smallEngine_sealed (bound : Nat) {nonce : Bytes} {ballot : SealedBallot}
    (hballot : (smallEngine bound).ballot? nonce = some ballot) : ∃ supply witness rest,
      (smallPlainOf ballot).seal smallElection.key nonce supply =
        (.ok (ballot, witness), rest) := by
  rw [smallEngine, ballot?_move, ballot?_withBallot] at hballot
  split at hballot
  · next htest =>
    cases hballot
    exact htest ▸ ⟨_, testBallot_sealed⟩
  change (((new smallElection bound).withBallot smallBallot [7]).move [7]
    .confirmed).ballot? nonce = some ballot at hballot
  rw [ballot?_move, ballot?_withBallot] at hballot
  split at hballot
  · next hsmall =>
    cases hballot
    exact hsmall ▸ ⟨_, smallBallot_sealed⟩
  · cases hballot

/-- The one counted vote is within a bound of one, and not within a bound of zero. -/
theorem report_correct_small :
    let key : DecryptionKey := ⟨Group.small, 4⟩
    let engine := (new smallElection 5).afterAll smallCalls
    let challenged : Dict String PlainBallot := Dict.ofList [("test", testPlain)]
    engine.phase ≠ .reported ∧ key.fits smallElection.key = true ∧
      engine.inState .confirmed = [smallBallot] ∧ engine.inState .challenged = [testBallot] ∧
      (∀ nonce ballot, engine.ballot? nonce = some ballot → ∃ supply witness rest,
        (smallPlainOf ballot).seal smallElection.key nonce supply =
          (.ok (ballot, witness), rest)) ∧
      engine.Stores ⟨4, 12⟩ ∧ (∀ m, key.Opens ⟨4, 12⟩ m ↔ m = 1) ∧
      engine.count key "mayor" "ann" = 1 ∧
      (reportWithBound key 1 engine).1 =
        .ok ⟨Dict.ofList [("mayor", Dict.ofList [("ann", 1), ("ben", 0)])], challenged⟩ ∧
      engine.audit key = .ok challenged ∧
      (reportWithBound key 0 engine).1 = .error (.refused (.searchExhausted 0)) := by
  intro key engine challenged
  have hengine : engine = smallEngine 5 := afterAll_smallCalls 5
  have hsafe : smallElection.group.IsSafe := Group.small_isSafe
  have hfits : key.fits smallElection.key = true := by decide
  have hphase : engine.phase ≠ .reported := by
    rw [hengine]
    decide +kernel
  have hconfirmed : engine.inState .confirmed = [smallBallot] := by
    rw [hengine]
    decide +kernel
  have hchallenged : engine.inState .challenged = [testBallot] := by
    rw [hengine]
    decide +kernel
  have helection : engine.election = smallElection :=
    (consistent_afterAll smallElection 5 smallCalls).2
  have hsealed : ∀ nonce ballot, engine.ballot? nonce = some ballot → ∃ supply witness rest,
      (smallPlainOf ballot).seal smallElection.key nonce supply =
        (.ok (ballot, witness), rest) := by
    rw [hengine]
    exact fun _ _ => smallEngine_sealed 5
  have hstores : engine.Stores ⟨4, 12⟩ := by
    refine .inl ⟨[7], smallBallot, ?_, _, List.mem_singleton_self _, _, List.mem_cons_self, rfl⟩
    rw [hengine]
    decide +kernel
  obtain ⟨hopens, hreport, _, _, _, hplain⟩ :=
    report_correct hsafe 5 smallCalls hfits 1 hphase
  obtain ⟨_, _, hexhausted, _⟩ := report_correct hsafe 5 smallCalls hfits 0 hphase
  obtain ⟨hcounts, hopen, _⟩ := hplain smallPlainOf hsealed
  have hcount : engine.count key "mayor" "ann" = 1 := by
    rw [hcounts, hconfirmed]
    decide
  have hwithin : engine.CountsWithin key 1 := by
    intro name race _ candidate _
    rw [hcounts, hconfirmed]
    exact (Nat.mod_le _ _).trans List.countP_le_length
  have hbeyond : ¬ engine.CountsWithin key 0 := by
    intro hwithin
    have hrace : engine.election.races.get? "mayor" =
        some ⟨1, KeySet.ofKeys ["ann", "ben"]⟩ := by
      rw [helection]
      rfl
    have hle := hwithin "mayor" _ hrace "ann" (by decide)
    rw [hcount] at hle
    cases hle
  have hraces : engine.counts key =
      Dict.ofList [("mayor", Dict.ofList [("ann", 1), ("ben", 0)])] := by
    rw [hengine]
    decide +kernel
  have hopened : engine.openedChallenged key = challenged := by
    rw [hengine]
    decide +kernel
  obtain ⟨hresult, haudit⟩ := hreport hwithin hopen
  rw [hraces, hopened] at hresult
  rw [hopened] at haudit
  refine ⟨hphase, hfits, hconfirmed, hchallenged, hsealed, hstores, fun m => ?_, hcount, hresult,
    haudit, hexhausted hbeyond⟩
  exact (hopens _ hstores m).trans (by rw [show key.plaintext ⟨4, 12⟩ = 1 by decide +kernel])

end Engine

end SecretBallot
