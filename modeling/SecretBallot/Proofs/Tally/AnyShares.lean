import Mathlib
import SecretBallot.Proofs.Tally.Shares

namespace SecretBallot

namespace Ciphertext

theorem lt_of_searchFrom {group : Group} {target steps m power found : Nat}
    (hsearch : searchFrom group target steps m power = some found) : found < m + steps := by
  induction steps generalizing m power with
  | zero => cases hsearch
  | succ steps ih =>
    rw [searchFrom] at hsearch
    by_cases hpower : power = target
    · rw [if_pos hpower] at hsearch
      cases hsearch
      omega
    · rw [if_neg hpower] at hsearch
      have hlt := ih hsearch
      omega

/-- What a search finds is within its bound. -/
theorem le_of_search {group : Group} {target bound m : Nat}
    (hsearch : search group target bound = .ok m) : m ≤ bound := by
  rw [search] at hsearch
  cases hfound : searchFrom group target (bound + 1) 0 1 with
  | none =>
    rw [hfound] at hsearch
    cases hsearch
  | some found =>
    rw [hfound] at hsearch
    cases hsearch
    have hlt := lt_of_searchFrom hfound
    omega

section Decrypt

variable {key : DecryptionKey} {ciphertext : Ciphertext} {bound m : Nat}
  (hdecrypt : ciphertext.decrypt key bound = .ok m)

include hdecrypt

theorem le_of_decrypt : m ≤ bound := by
  rw [decrypt] at hdecrypt
  obtain ⟨_, _, hdecrypt⟩ := bind_eq_ok_iff.1 hdecrypt
  obtain ⟨_, _, hdecrypt⟩ := bind_eq_ok_iff.1 hdecrypt
  obtain ⟨_, _, hsearch⟩ := bind_eq_ok_iff.1 hdecrypt
  exact le_of_search (lift_eq_ok_iff.1 hsearch)

theorem opens_of_decrypt (hsafe : key.group.IsSafe)
    (hformed : ciphertext.isWellFormed key.group = true) : key.Opens ciphertext m := by
  rw [decrypt_eq hsafe hformed] at hdecrypt
  by_cases hbound : key.plaintext ciphertext ≤ bound
  · rw [if_pos hbound] at hdecrypt
    cases hdecrypt
    exact DecryptionKey.opens_plaintext hsafe hformed
  · rw [if_neg hbound] at hdecrypt
    cases hdecrypt

end Decrypt

/-- Two keys that decrypt a masked ciphertext to the same plaintext are the same key. -/
theorem exp_eq_of_decrypt {group : Group} (hsafe : group.IsSafe) {x y : Nat}
    {ciphertext : Ciphertext} (hformed : ciphertext.isWellFormed group = true)
    (hmasked : ciphertext.pad ≠ 1) {bound other m : Nat}
    (hx : ciphertext.decrypt ⟨group, x⟩ bound = .ok m)
    (hy : ciphertext.decrypt ⟨group, y⟩ other = .ok m) : (x : ZMod group.q) = y := by
  have := Fact.mk hsafe.prime_q
  have hopensX := opens_of_decrypt hx hsafe hformed
  have hopensY := opens_of_decrypt hy hsafe hformed
  obtain ⟨r, d, rfl⟩ := exists_eq_powG hsafe hformed
  have hr : (r : ZMod group.q) ≠ 0 := fun hzero => hmasked ((Group.powG_eq_one_iff hsafe).2 hzero)
  obtain ⟨_, hdataX⟩ := (DecryptionKey.opens_powG_iff hsafe).1 hopensX
  obtain ⟨_, hdataY⟩ := (DecryptionKey.opens_powG_iff hsafe).1 hopensY
  exact mul_left_cancel₀ hr (add_right_cancel (hdataX.symm.trans hdataY))

end Ciphertext

/-- Whether a key fits depends on its exponent modulo `q`. -/
theorem DecryptionKey.fits_congr {publicKey : PublicKey} (hsafe : publicKey.group.IsSafe)
    {key other : DecryptionKey} (hkey : key.group = publicKey.group)
    (hother : other.group = publicKey.group) (hexp : (key.x : ZMod publicKey.group.q) = other.x) :
    key.fits publicKey = other.fits publicKey := by
  have hpower : publicKey.group.powG key.x = publicKey.group.powG other.x :=
    (Group.powG_eq_powG_iff hsafe).2 hexp
  rw [fits, fits, hkey, hother, hpower]

/-- Two ways to open the votes of a ballot that give one plain ballot agree on every vote. -/
theorem SealedBallot.agree_of_openWith {ballot : SealedBallot} {opener other : VoteOpener}
    {plain : PlainBallot} (hopener : ballot.openWith opener = .ok plain)
    (hother : ballot.openWith other = .ok plain) {race : SealedRace} (hrace : race ∈ ballot.races)
    {entry : String × SealedVote} (hentry : entry ∈ race.votes.entries) :
    ∃ m n, opener race.name entry.1 entry.2.ciphertext = .ok m ∧
      other race.name entry.1 entry.2.ciphertext = .ok n ∧ (m == 1) = (n == 1) := by
  obtain ⟨races, hraces, hpure⟩ := bind_eq_ok_iff.1 hopener
  cases hpure
  obtain ⟨others, hothers, hpure⟩ := bind_eq_ok_iff.1 hother
  cases hpure
  obtain ⟨result, _, hresult, hresultOther⟩ :=
    exists_both_of_mem (forall₂_of_mapM hraces) (forall₂_of_mapM hothers) hrace
  obtain ⟨votes, hvotes, hpure⟩ := bind_eq_ok_iff.1 hresult
  cases hpure
  obtain ⟨_, hvotesOther, hpure⟩ := bind_eq_ok_iff.1 hresultOther
  cases hpure
  obtain ⟨selected, _, ⟨_, hselected⟩, _, hselectedOther⟩ := exists_both_of_mem
    (Dict.forall₂_of_mapM hvotes) (Dict.forall₂_of_mapM hvotesOther) hentry
  obtain ⟨m, hm, hbit⟩ := bind_eq_ok_iff.1 hselected
  obtain ⟨n, hn, hbitOther⟩ := bind_eq_ok_iff.1 hselectedOther
  exact ⟨m, n, hm, hn, (Except.ok.inj hbit).trans (Except.ok.inj hbitOther).symm⟩

namespace ClosedTally

/-- Some ciphertext of the tally is hidden by a mask. -/
def IsMasked (tally : ClosedTally) : Prop :=
  ∃ entry ∈ tally.slots, entry.2.pad ≠ 1

variable {tally : ClosedTally}

theorem agree_of_openTotals {opener other : VoteOpener} {totals : Dict String (Dict String Nat)}
    (hopener : tally.openTotals opener = .ok totals) (hother : tally.openTotals other = .ok totals)
    {entry : String × Dict String Ciphertext} (hentry : entry ∈ tally.totals.entries)
    {total : String × Ciphertext} (htotal : total ∈ entry.2.entries) :
    ∃ m, opener entry.1 total.1 total.2 = .ok m ∧ other entry.1 total.1 total.2 = .ok m := by
  obtain ⟨_, _, ⟨_, hrace⟩, _, hraceOther⟩ := exists_both_of_mem
    (Dict.forall₂_of_mapM hopener) (Dict.forall₂_of_mapM hother) hentry
  obtain ⟨count, _, ⟨_, hcount⟩, _, hcountOther⟩ := exists_both_of_mem
    (Dict.forall₂_of_mapM hrace) (Dict.forall₂_of_mapM hraceOther) htotal
  exact ⟨count.2, hcount, hcountOther⟩

/-- Every challenged ballot is opened and found under its id. -/
theorem exists_of_openChallenged (hids : (tally.challenged.map (·.id)).Nodup)
    {opener : String → VoteOpener} {opened : Dict String PlainBallot}
    (hopener : tally.openChallenged opener = .ok opened) {ballot : SealedBallot}
    (hballot : ballot ∈ tally.challenged) : ∃ plain,
      ballot.openWith (opener ballot.id) = .ok plain ∧ opened.get? ballot.id = some plain := by
  obtain ⟨entries, hentries, hpure⟩ := bind_eq_ok_iff.1 hopener
  cases hpure
  have hall : List.Forall₂ (fun (ballot : SealedBallot) (entry : String × PlainBallot) =>
      ballot.id = entry.1 ∧ ballot.openWith (opener ballot.id) = .ok entry.2)
      tally.challenged entries := by
    refine (forall₂_of_mapM hentries).imp fun ballot entry hentry => ?_
    obtain ⟨plain, hplain, hpure⟩ := bind_eq_ok_iff.1 hentry
    cases hpure
    exact ⟨rfl, hplain⟩
  have hkeys : tally.challenged.map (·.id) = entries.map (·.1) :=
    map_eq_map_of_forall₂ hall fun _ _ hentry => hentry.1
  obtain ⟨⟨id, plain⟩, hmem, ⟨rfl, hplain⟩, _⟩ := exists_both_of_mem hall hall hballot
  exact ⟨plain, hplain, (Dict.get?_ofList (hkeys ▸ hids)).2 hmem⟩

/-- Two ways to open a tally that give one report agree on every slot, if they keep to the bounds
    of their searches. -/
theorem agree_of_openSlots (hids : (tally.challenged.map (·.id)).Nodup)
    {opener other : Slot → Ciphertext → Nat → Outcome Nat}
    (hle : ∀ {slot ciphertext bound m}, opener slot ciphertext bound = .ok m → m ≤ bound)
    (hleOther : ∀ {slot ciphertext bound m}, other slot ciphertext bound = .ok m → m ≤ bound)
    {bound : Nat} {report : Report} (hopener : tally.openSlots opener bound = .ok report)
    (hother : tally.openSlots other bound = .ok report) {slot : Slot} {ciphertext : Ciphertext}
    (hslot : (slot, ciphertext) ∈ tally.slots) :
    ∃ limit m, opener slot ciphertext limit = .ok m ∧ other slot ciphertext limit = .ok m := by
  obtain ⟨totals, htotals, hrest⟩ := bind_eq_ok_iff.1 hopener
  obtain ⟨opened, hopened, hpure⟩ := bind_eq_ok_iff.1 hrest
  cases hpure
  obtain ⟨_, htotalsOther, hrest⟩ := bind_eq_ok_iff.1 hother
  obtain ⟨_, hopenedOther, hpure⟩ := bind_eq_ok_iff.1 hrest
  cases hpure
  rcases mem_slots_iff.1 hslot with ⟨entry, hentry, total, htotal, rfl, rfl⟩ |
    ⟨ballot, hballot, race, hrace, entry, hentry, rfl, rfl⟩
  · exact ⟨bound, agree_of_openTotals htotals htotalsOther hentry htotal⟩
  · obtain ⟨plain, hplain, hget⟩ := exists_of_openChallenged hids hopened hballot
    obtain ⟨found, hfound, hgetOther⟩ := exists_of_openChallenged hids hopenedOther hballot
    obtain rfl : plain = found := Option.some.inj (hget.symm.trans hgetOther)
    obtain ⟨m, n, hm, hn, hbit⟩ := SealedBallot.agree_of_openWith hplain hfound hrace hentry
    -- A plain ballot tells of a plaintext only whether it is one; up to one that is all.
    have hmn : m = n := by
      have hmle := hle hm
      have hnle := hleOther hn
      rw [beq_eq_beq] at hbit
      omega
    exact ⟨1, m, hm, hmn ▸ hn⟩

end ClosedTally

namespace DecryptionShare

variable {group : Group} {tally : ClosedTally}

theorem le_of_decrypt {parts : List DecryptionShare} {slot : Slot} {ciphertext : Ciphertext}
    {bound m : Nat} (hdecrypt : decrypt parts group slot ciphertext bound = .ok m) : m ≤ bound := by
  obtain ⟨_, _, hdecrypt⟩ := bind_eq_ok_iff.1 hdecrypt
  rw [Ciphertext.decryptWithPartials] at hdecrypt
  obtain ⟨_, _, hdecrypt⟩ := bind_eq_ok_iff.1 hdecrypt
  obtain ⟨_, _, hdecrypt⟩ := bind_eq_ok_iff.1 hdecrypt
  obtain ⟨_, _, hsearch⟩ := bind_eq_ok_iff.1 hdecrypt
  exact Ciphertext.le_of_search (lift_eq_ok_iff.1 hsearch)

section Slots

variable (hready : tally.IsReady group) (hsafe : group.IsSafe) {holders : List PrivateShare}
  (hgroup : ∀ share ∈ holders, share.group = group) {parts : List DecryptionShare}
  (hparts : AreFrom parts holders tally) {slot : Slot} {ciphertext : Ciphertext}
  (hslot : (slot, ciphertext) ∈ tally.slots) {bound m : Nat}
  (hdecrypt : decrypt parts group slot ciphertext bound = .ok m)

include hready hsafe hgroup hparts hslot hdecrypt

/-- A masked slot is decrypted only with shares that combine to a key. -/
theorem exists_combined (hmasked : ciphertext.pad ≠ 1) : holders ≠ [] ∧
    ∃ threshold collected key,
      holders.foldlM (DecryptionKey.collectShare group threshold) ∅ = .ok collected ∧
        DecryptionKey.combine holders = .ok key := by
  obtain ⟨r, d, rfl⟩ := Ciphertext.exists_eq_powG hsafe (hready.formed _ hslot)
  have hr : (r : ZMod group.q) ≠ 0 := fun hzero => hmasked ((Group.powG_eq_one_iff hsafe).2 hzero)
  rw [decrypt_eq_bind hready hgroup hparts hslot rfl] at hdecrypt
  obtain ⟨mask, hmask, _⟩ := bind_eq_ok_iff.1 hdecrypt
  obtain ⟨hne, threshold, collected, hcollect⟩ :=
    PartialDecryption.exists_collected_of_combine hsafe hr hgroup hmask
  rw [PartialDecryption.combine_ofShare hsafe hne hcollect] at hmask
  obtain ⟨key, hcombine, _⟩ := map_eq_ok_iff.1 hmask
  exact ⟨hne, threshold, collected, key, hcollect, hcombine⟩

/-- A slot without a mask is decrypted as with any key. -/
theorem decrypt_unmasked (hpad : ciphertext.pad = 1) {key : DecryptionKey}
    (hkey : key.group = group) :
    decrypt parts group slot ciphertext = ciphertext.decrypt key := by
  have hzero : group.powG 0 = ciphertext.pad := by rw [hpad, Group.powG_zero]
  rw [decrypt_eq_bind hready hgroup hparts hslot hzero] at hdecrypt
  obtain ⟨mask, hmask, _⟩ := bind_eq_ok_iff.1 hdecrypt
  have hone : mask = 1 := by
    refine PartialDecryption.combine_eq_one hsafe (fun part hpart => ?_) hmask
    obtain ⟨share, _, rfl⟩ := List.mem_map.1 hpart
    rw [PartialDecryption.ofShare, Nat.zero_mul, Group.powG_zero]
  have hunmask : key.unmask ciphertext.pad = .ok mask := by
    rw [DecryptionKey.unmask, hkey, ← hzero, Group.pow_powG, Nat.zero_mul, Group.powG_zero, hone]
  funext bound
  rw [decrypt_eq_bind hready hgroup hparts hslot hzero, hmask, Ciphertext.decrypt, hkey,
    ensure_of _ (hready.formed _ hslot), hunmask]
  rfl

end Slots

end DecryptionShare

namespace Engine

namespace Consistent

variable {engine : Engine} (hconsistent : engine.Consistent)
  (hsafe : engine.election.group.IsSafe)

include hconsistent hsafe

/-- If two keys open a masked tally to one report, they are one key. -/
theorem exp_eq_of_openTally (hmasked : engine.closedTally.IsMasked) {key other : DecryptionKey}
    (hkey : key.group = engine.election.group) (hother : other.group = engine.election.group)
    {bound : Nat} {result : Report} (hopen : engine.openTally key bound = .ok result)
    (hopenOther : engine.openTally other bound = .ok result) :
    (key.x : ZMod engine.election.group.q) = other.x := by
  obtain ⟨⟨slot, ciphertext⟩, hslot, hpad⟩ := hmasked
  rw [openTally_eq_openSlots] at hopen hopenOther
  obtain ⟨limit, m, hm, hmOther⟩ := ClosedTally.agree_of_openSlots hconsistent.challenged_nodup
    Ciphertext.le_of_decrypt Ciphertext.le_of_decrypt hopen hopenOther hslot
  obtain ⟨_, x⟩ := key
  obtain ⟨_, y⟩ := other
  obtain rfl := hkey
  obtain rfl := hother
  exact Ciphertext.exp_eq_of_decrypt hsafe (hconsistent.isReady.formed _ hslot) hpad hm
    hmOther

/-- A tally that a key of its group opens is opened to the counts and the ballots under that key. -/
theorem eq_of_openTally {key : DecryptionKey} (hkey : key.group = engine.election.group)
    {bound : Nat} {result : Report} (hopen : engine.openTally key bound = .ok result) :
    result = ⟨engine.counts key, engine.openedChallenged key⟩ := by
  classical
  have hkeySafe : key.group.IsSafe := hkey ▸ hsafe
  rw [hconsistent.openTally_eq hkeySafe hkey] at hopen
  by_cases hwithin : engine.CountsWithin key bound
  · by_cases hchallenged : engine.ChallengedOpen key
    · rw [if_pos hwithin, if_pos hchallenged] at hopen
      exact (Except.ok.inj hopen).symm
    · rw [if_pos hwithin, if_neg hchallenged] at hopen
      cases hopen
  · rw [if_neg hwithin] at hopen
    cases hopen

section Holders

variable {holders : List PrivateShare}
  (hgroup : ∀ share ∈ holders, share.group = engine.election.group)
  {parts : List DecryptionShare}
  (hparts : DecryptionShare.AreFrom parts holders engine.closedTally) {result : Report}
  (hopen : engine.openFromShares parts = .ok result)

include hgroup hparts hopen

/-- A masked tally is opened only by shares that combine to a key, and as with that key. -/
theorem openTally_of_masked (hmasked : engine.closedTally.IsMasked) : ∃ combined,
    DecryptionKey.combine holders = .ok combined ∧
      engine.openTally combined engine.bound = .ok result := by
  obtain ⟨⟨slot, ciphertext⟩, hslot, hpad⟩ := hmasked
  have hslots := hopen
  rw [openFromShares_eq_openSlots] at hslots
  obtain ⟨limit, m, hdecrypt, _⟩ := ClosedTally.agree_of_openSlots hconsistent.challenged_nodup
    DecryptionShare.le_of_decrypt DecryptionShare.le_of_decrypt hslots hslots hslot
  obtain ⟨hne, threshold, collected, combined, hcollect, hcombine⟩ :=
    DecryptionShare.exists_combined hconsistent.isReady hsafe hgroup hparts hslot hdecrypt
      hpad
  refine ⟨combined, hcombine, ?_⟩
  rw [← hconsistent.openFromShares_eq hsafe hgroup hparts hne hcollect hcombine, hopen]

/-- A tally without masks is opened as with any key. -/
theorem openTally_of_unmasked (hunmasked : ¬ engine.closedTally.IsMasked) {key : DecryptionKey}
    (hkey : key.group = engine.election.group) :
    engine.openTally key engine.bound = .ok result := by
  rw [openFromShares_eq_openSlots] at hopen
  rw [openTally_eq_openSlots, ← hopen]
  refine (ClosedTally.openSlots_congr (fun slot ciphertext hslot => ?_) engine.bound).symm
  have hpad : ciphertext.pad = 1 := by
    by_contra hne
    exact hunmasked ⟨_, hslot, hne⟩
  obtain ⟨limit, m, hdecrypt, _⟩ := ClosedTally.agree_of_openSlots hconsistent.challenged_nodup
    DecryptionShare.le_of_decrypt DecryptionShare.le_of_decrypt hopen hopen hslot
  exact DecryptionShare.decrypt_unmasked hconsistent.isReady hsafe hgroup hparts hslot
    hdecrypt hpad hkey

end Holders

end Consistent

/-- A report from contributions of private shares of the election's group, whatever their indices,
    their thresholds and their values are. It is the report with the election key exactly if the
    shares combine to a key that fits, or if no ciphertext is masked. If one is, the shares do
    combine to some key, and what is reported is what the votes open to under that key. -/
theorem report_from_any_shares {election : Election} (hsafe : election.group.IsSafe) (bound : Nat)
    (calls : List Call) (hphase : ((new election bound).afterAll calls).phase ≠ .reported)
    {holders : List PrivateShare} (hholders : ∀ share ∈ holders, share.group = election.group)
    {parts : List DecryptionShare} (hparts : DecryptionShare.AreFrom parts holders
      ((new election bound).afterAll calls).closedTally) {result : Report}
    (hresult : (reportFromShares parts ((new election bound).afterAll calls)).1 = .ok result) :
    let engine := (new election bound).afterAll calls
    (∀ key : DecryptionKey, key.fits election.key = true →
      ((report key engine).1 = .ok result ↔ ¬ engine.closedTally.IsMasked ∨
        ∃ combined, DecryptionKey.combine holders = .ok combined ∧
          combined.fits election.key = true)) ∧
    (engine.closedTally.IsMasked → ∃ combined, DecryptionKey.combine holders = .ok combined ∧
      result = ⟨engine.counts combined, engine.openedChallenged combined⟩) := by
  intro engine
  obtain ⟨hconsistent, helection⟩ := consistent_afterAll election bound calls
  change engine.Consistent at hconsistent
  change engine.election = election at helection
  change engine.phase ≠ .reported at hphase
  change DecryptionShare.AreFrom parts holders engine.closedTally at hparts
  change (reportFromShares parts engine).1 = .ok result at hresult
  clear_value engine
  subst helection
  have hattempt {outcome : Outcome Report} :
      (engine.attempt outcome).1 = .ok result ↔ outcome = .ok result := by
    cases outcome <;> rfl
  have hopen : engine.openFromShares parts = .ok result := by
    rwa [reportFromShares_apply, if_neg hphase, hattempt] at hresult
  have hgroupOf {combined : DecryptionKey}
      (hcombine : DecryptionKey.combine holders = .ok combined) :
      combined.group = engine.election.group := DecryptionKey.group_of_combine hholders hcombine
  refine ⟨fun key hfits => ?_, fun hmasked => ?_⟩
  · have hkey : key.group = engine.election.group := DecryptionKey.group_of_fits hfits
    have hreport : (report key engine).1 = .ok result ↔
        engine.openTally key engine.bound = .ok result := by
      rw [report_apply, reportWithBound_apply, if_neg hphase, openWithKey_of_fits hfits, hattempt]
    rw [hreport]
    constructor
    · intro hright
      -- A masked slot that two keys open alike leaves room for one exponent only.
      by_cases hmasked : engine.closedTally.IsMasked
      · obtain ⟨combined, hcombine, hcombined⟩ :=
          hconsistent.openTally_of_masked hsafe hholders hparts hopen hmasked
        have hexp := hconsistent.exp_eq_of_openTally hsafe hmasked (hgroupOf hcombine) hkey
          hcombined hright
        have hfitsOf := DecryptionKey.fits_congr hsafe (hgroupOf hcombine) hkey hexp
        exact .inr ⟨combined, hcombine, hfitsOf.trans hfits⟩
      · exact .inl hmasked
    · rintro (hunmasked | ⟨combined, hcombine, hcombinedFits⟩)
      · exact hconsistent.openTally_of_unmasked hsafe hholders hparts hopen hunmasked hkey
      · by_cases hmasked : engine.closedTally.IsMasked
        · obtain ⟨found, hfound, hcombined⟩ :=
            hconsistent.openTally_of_masked hsafe hholders hparts hopen hmasked
          obtain rfl := Except.ok.inj (hcombine.symm.trans hfound)
          rw [hconsistent.openTally_of_fits hsafe hfits hcombinedFits, hcombined]
        · exact hconsistent.openTally_of_unmasked hsafe hholders hparts hopen hmasked hkey
  · obtain ⟨combined, hcombine, hcombined⟩ :=
      hconsistent.openTally_of_masked hsafe hholders hparts hopen hmasked
    exact ⟨combined, hcombine, hconsistent.eq_of_openTally hsafe (hgroupOf hcombine) hcombined⟩

/-- A share of some other key, which declares that it suffices alone. -/
def foreignShare : PrivateShare :=
  (PrivateShare.new Group.small 1 1 5).toOption.get (by decide)

/-- What the foreign share contributes to the tally of the one ballot. -/
def foreignPart : DecryptionShare :=
  ⟨1, Dict.ofList [(.total "mayor" "ann", ⟨1, 1, 12⟩), (.total "mayor" "ben", ⟨1, 1, 6⟩)]⟩

/-- The foreign share has nine votes reported for the candidate who got none. -/
theorem report_from_any_shares_small :
    let engine := (new smallElection 10).afterAll [.record smallBallot [7], .confirm [7], .close]
    let wrong : Report := ⟨Dict.ofList [("mayor", Dict.ofList [("ann", 0), ("ben", 9)])], ∅⟩
    engine.phase ≠ .reported ∧
      DecryptionShare.AreFrom [foreignPart] [foreignShare] engine.closedTally ∧
      (reportFromShares [foreignPart] engine).1 = .ok wrong ∧
      (report ⟨Group.small, 4⟩ engine).1 =
        .ok ⟨Dict.ofList [("mayor", Dict.ofList [("ann", 1), ("ben", 0)])], ∅⟩ ∧
      ∀ key : DecryptionKey, key.fits smallElection.key = true →
        (report key engine).1 ≠ .ok wrong := by
  intro engine wrong
  let calls : List Call := [.record smallBallot [7], .confirm [7], .close]
  let counted : Engine :=
    ((new smallElection 10).withBallot smallBallot [7]).withConfirmed smallBallot [7]
  let closed : Engine := { counted with phase := .closed }
  have hcounted : (new smallElection 10).afterAll [.record smallBallot [7], .confirm [7]] =
      counted := afterAll_counted (smallBallot_admitted 10)
  have hclosed : (new smallElection 10).afterAll calls = closed := by
    rw [show calls = [.record smallBallot [7], .confirm [7]] ++ [.close] from rfl, afterAll_append,
      hcounted]
    rfl
  have hengine : engine = closed := hclosed
  rw [hengine]
  have hphase : closed.phase ≠ .reported := by decide
  have hparts : DecryptionShare.AreFrom [foreignPart] [foreignShare] closed.closedTally :=
    .cons (by decide +kernel) .nil
  have hresult : (reportFromShares [foreignPart] closed).1 = .ok wrong := by decide +kernel
  have hreport : (report ⟨Group.small, 4⟩ closed).1 =
      .ok ⟨Dict.ofList [("mayor", Dict.ofList [("ann", 1), ("ben", 0)])], ∅⟩ := by decide +kernel
  refine ⟨hphase, hparts, hresult, hreport, fun key hfits hsame => ?_⟩
  have hsafe : smallElection.group.IsSafe := Group.small_isSafe
  have hright := report_from_any_shares hsafe 10 calls (by rwa [hclosed])
    (List.forall_mem_singleton.2 rfl) (by rwa [hclosed]) (by rwa [hclosed])
  rw [hclosed] at hright
  rcases (hright.1 key hfits).1 hsame with hunmasked | ⟨combined, hcombine, hcombinedFits⟩
  · exact hunmasked ⟨(.total "mayor" "ann", ⟨4, 12⟩), by decide +kernel, by decide⟩
  · obtain rfl : combined = ⟨Group.small, 5⟩ :=
      Except.ok.inj (hcombine.symm.trans (by decide +kernel))
    exact absurd hcombinedFits (by decide)

end Engine

end SecretBallot
