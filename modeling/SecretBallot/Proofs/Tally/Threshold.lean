import Mathlib
import SecretBallot.Proofs.Ceremony.Run
import SecretBallot.Proofs.Tally.Shares

namespace SecretBallot

namespace Election

/-- Races are collected if no name comes twice, each as it was given. -/
theorem of_foldlM_addRace {races : List (String × Race)} {collected result : ValidRaces}
    (hfold : races.foldlM addRace collected = .ok result) :
    (∀ name race, collected.1.get? name = some race → result.1.get? name = some race) ∧
      ∀ entry ∈ races, result.1.get? entry.1 = some entry.2 := by
  induction races generalizing collected with
  | nil =>
    cases hfold
    exact ⟨fun _ _ h => h, by simp⟩
  | cons entry rest ih =>
    rw [List.foldlM_cons] at hfold
    obtain ⟨between, hentry, hrest⟩ := bind_eq_ok_iff.1 hfold
    obtain ⟨hkept, hall⟩ := ih hrest
    have hadded : collected.1.get? entry.1 = none ∧
        between.1 = collected.1.insert entry.1 entry.2 := by
      rw [addRace] at hentry
      by_cases hsize : 0 < entry.2.candidates.size
      · by_cases hlimit : entry.2.limit.toNat ≤ entry.2.candidates.size
        · by_cases hnew : collected.1.contains entry.1 = true
          · simp [hsize, hlimit, hnew] at hentry
          · simp only [hsize, hlimit, hnew, dite_true, Bool.false_eq_true, if_false,
              Except.ok.injEq] at hentry
            subst hentry
            exact ⟨Dict.not_contains_iff.1 hnew, rfl⟩
        · simp [hsize, hlimit] at hentry
      · simp [hsize] at hentry
    -- A name that is taken is refused, so no race replaces one that was collected before.
    refine ⟨fun name race hget => hkept name race ?_, List.forall_mem_cons.2 ⟨hkept _ _ ?_, hall⟩⟩
    · have hne : name ≠ entry.1 := by
        rintro rfl
        rw [hadded.1] at hget
        cases hget
      rw [hadded.2, Dict.get?_insert, if_neg hne, hget]
    · rw [hadded.2, Dict.get?_insert, if_pos rfl]

/-- An election has the key and the races that it was made of, and at least one race. -/
theorem new_eq_ok {key : PublicKey} {races : List (String × Race)} {election : Election}
    (hnew : new key races = .ok election) : election.key = key ∧ election.races.entries ≠ [] ∧
      ∀ entry ∈ races, election.races.get? entry.1 = some entry.2 := by
  rw [new] at hnew
  obtain ⟨_, hne, hnew⟩ := bind_eq_ok_iff.1 hnew
  obtain ⟨collected, hfold, hpure⟩ := bind_eq_ok_iff.1 hnew
  cases hpure
  obtain ⟨_, hall⟩ := of_foldlM_addRace hfold
  refine ⟨rfl, fun hnil => ?_, hall⟩
  obtain ⟨first, rest, rfl⟩ := List.exists_cons_of_ne_nil (ensure_eq_ok_iff.1 hne)
  have hmem := Dict.get?_eq_some_iff.1 (hall first List.mem_cons_self)
  rw [hnil] at hmem
  cases hmem

end Election

namespace Ceremony

/-- A ceremony that ended well yielded what it returned. -/
theorem yields_of_run {group : Group} (hsafe : group.IsSafe) {n t : UInt64}
    {created order : List Authority} {supply rest : Bytes}
    (hcreated : authorities group n t supply = (.ok created, rest)) (horder : order.Perm created)
    {f : Nat} {publicKey : PublicKey} {shares : List PrivateShare}
    (hrun : (run f order).1 = .ok (publicKey, shares)) :
    Yields group t created order f publicKey shares := by
  have hn : n ≠ 0 := by
    rintro rfl
    have hlength := (party_of_authorities hcreated horder).indices.length_eq
    rw [List.length_map, length_authorityIndices] at hlength
    obtain rfl := List.length_eq_zero_iff.1 hlength
    cases hrun
  obtain ⟨hgood, hbad⟩ := run_correct hsafe hn hcreated horder f
  by_cases hready : group.isGenerator f = true ∧ jointSecret created % group.q ≠ 0
  · obtain ⟨_, _, hfound, hyields⟩ := hgood hready
    obtain ⟨rfl, rfl⟩ := Prod.mk.inj (Except.ok.inj (hfound.symm.trans hrun))
    exact hyields
  · obtain ⟨_, hfailed⟩ := hbad hready
    cases hfailed.symm.trans hrun

end Ceremony

namespace Engine

namespace Consistent

variable {engine : Engine} (hconsistent : engine.Consistent)
  (hsafe : engine.election.group.IsSafe)

include hconsistent hsafe

/-- A report with a key that fits is either one of the tally or a search that went too far. -/
theorem report_cases (hphase : engine.phase ≠ .reported) {key : DecryptionKey}
    (hfits : key.fits engine.election.key = true) :
    (∃ result, (report key engine).1 = .ok result) ∨
      ∃ searched, (report key engine).1 = .error (.refused (.searchExhausted searched)) := by
  classical
  have hgroup : key.group = engine.election.group := DecryptionKey.group_of_fits hfits
  have hkey : key.group.IsSafe := hgroup ▸ hsafe
  rw [report_apply, reportWithBound_apply, if_neg hphase,
    hconsistent.openWithKey_eq hkey hgroup hfits]
  by_cases hwithin : engine.CountsWithin key engine.bound
  · rw [if_pos hwithin]
    by_cases hopen : engine.ChallengedOpen key
    · rw [if_pos hopen]
      exact .inl ⟨_, rfl⟩
    · rw [if_neg hopen]
      exact .inr ⟨_, rfl⟩
  · rw [if_neg hwithin]
    exact .inr ⟨_, rfl⟩

end Consistent

/-- What was closed is what there still is to decrypt, whatever was asked of the engine since. -/
theorem closedTally_of_close {election : Election} {bound : Nat} {before : List Call}
    {tally : ClosedTally} (hclose : (close ((new election bound).afterAll before)).1 = .ok tally)
    (later : List Call) :
    let engine := (new election bound).afterAll (before ++ .close :: later)
    engine.closedTally = tally ∧ engine.phase ≠ .opened := by
  intro engine
  let start := (new election bound).afterAll before
  have hstart : start.phase ≠ .reported := by
    intro hreported
    rw [close_apply, if_pos hreported] at hclose
    cases hclose
  have htally : start.closedTally = tally := by
    rw [close_apply, if_neg hstart] at hclose
    exact Except.ok.inj hclose
  have hclosed : start.after .close = { start with phase := .closed } := by
    rw [after, Call.run, Action.bind_pure_apply, close_apply, if_neg hstart]
  have hengine : engine = ({ start with phase := .closed } : Engine).afterAll later := by
    rw [show engine = start.afterAll (.close :: later) from afterAll_append _ _ _]
    exact congrArg (afterAll · later) hclosed
  have hphase : ({ start with phase := .closed } : Engine).phase ≠ .opened := Phase.noConfusion
  obtain ⟨phase, hne, hreached⟩ := afterAll_of_closed hphase later
  rw [hengine, hreached]
  exact ⟨htally, hne⟩

/-- After a key ceremony every authority can contribute to the decryption of the closed tally.
    Shares of the decryption from a threshold of the authorities report exactly what any key reports
    that the threshold combines to; shares from fewer are refused and leave the engine closed, so
    that a report can be asked for again. -/
theorem threshold_report_correct {group : Group} (hsafe : group.IsSafe) {n t : UInt64}
    {created order : List Authority} {supply rest : Bytes}
    (hcreated : Ceremony.authorities group n t supply = (.ok created, rest))
    (horder : order.Perm created) {f : Nat} {publicKey : PublicKey} {shares : List PrivateShare}
    (hrun : (Ceremony.run f order).1 = .ok (publicKey, shares)) {races : List (String × Race)}
    {election : Election} (helection : Election.new publicKey races = .ok election) (bound : Nat)
    (before later : List Call) {tally : ClosedTally}
    (hclose : (close ((new election bound).afterAll before)).1 = .ok tally)
    (hphase : ((new election bound).afterAll (before ++ .close :: later)).phase ≠ .reported) :
    let engine := (new election bound).afterAll (before ++ .close :: later)
    (∀ share ∈ shares, ∃ part, DecryptionShare.new share tally = .ok part) ∧
    ∀ (chosen : List PrivateShare) (parts : List DecryptionShare),
      (∀ share ∈ chosen, share ∈ shares) → DecryptionShare.AreFrom parts chosen tally →
      (t.toNat ≤ (parts.map (·.index)).toFinset.card →
        ∀ holders : List PrivateShare, (∀ share ∈ holders, share ∈ shares) →
          t.toNat ≤ (holders.map (·.index)).toFinset.card →
          ∃ key, DecryptionKey.combine holders = .ok key ∧
            reportFromShares parts engine = report key engine ∧
            ((∃ result, (report key engine).1 = .ok result) ∨
              ∃ searched, (report key engine).1 = .error (.refused (.searchExhausted searched)))) ∧
      (parts ≠ [] → (parts.map (·.index)).toFinset.card < t.toNat →
        reportFromShares parts engine = (.error (.refused
            (.notEnoughShares (parts.map (·.index)).toFinset.card t.toNat)), engine) ∧
          engine.phase = .closed) := by
  intro engine
  have hyields := Ceremony.yields_of_run hsafe hcreated horder hrun
  obtain ⟨hkey, hraces, _⟩ := Election.new_eq_ok helection
  obtain ⟨hconsistent, hsame⟩ := consistent_afterAll election bound (before ++ .close :: later)
  obtain ⟨htally, hopened⟩ := closedTally_of_close hclose later
  change engine.Consistent at hconsistent
  change engine.election = election at hsame
  change engine.closedTally = tally at htally
  change engine.phase ≠ .opened at hopened
  change engine.phase ≠ .reported at hphase
  have hgroup : group = engine.election.group := by
    rw [hsame, Election.group, hkey, hyields.group_eq]
  replace hkey : engine.election.key = publicKey := by rw [hsame, hkey]
  replace hraces : engine.election.races.entries ≠ [] := by rwa [hsame]
  clear_value engine
  subst hgroup hkey htally
  have hpoints : ∀ share ∈ shares, share.IsPoint engine.election.group t
      (Ceremony.jointPolynomial engine.election.group created) := by
    intro share hmem
    obtain ⟨_, _, _, hpoint⟩ := exists_of_mem_of_forall₂ hyields.points hmem
    exact hpoint
  have hready := hconsistent.isReady
  refine ⟨fun share hmem => ?_, fun chosen parts hchosen hparts => ?_⟩
  · obtain ⟨part, hpart, _⟩ := DecryptionShare.exists_new_eq hready (hpoints share hmem).group_eq
    exact ⟨part, hpart⟩
  have hof : ∀ share ∈ chosen, share.group = engine.election.group :=
    fun share hmem => (hpoints share (hchosen share hmem)).group_eq
  obtain ⟨collected, hcollect, _⟩ := DecryptionKey.exists_collected
    fun share hmem => hpoints share (hchosen share hmem)
  rw [hparts.map_index]
  constructor
  · intro hcount holders hholders hholdersCount
    obtain ⟨combined, hcombined, hcombinedFits⟩ := hyields.enough chosen hchosen hcount
    obtain ⟨key, hkey, hfits⟩ := hyields.enough holders hholders hholdersCount
    have hne : chosen ≠ [] := by
      rintro rfl
      cases hcombined
    exact ⟨key, hkey, hconsistent.reportFromShares_eq_report hsafe hof hparts hne hcollect hphase
      hcombined hcombinedFits hfits, hconsistent.report_cases hsafe hphase hfits⟩
  · intro hpartsNe hcount
    have hne : chosen ≠ [] := by
      rintro rfl
      cases hparts
      exact hpartsNe rfl
    have hclosed : engine.phase = .closed := by
      cases hcase : engine.phase with
      | opened => exact absurd hcase hopened
      | closed => rfl
      | reported => exact absurd hcase hphase
    exact ⟨hconsistent.reportFromShares_eq_error hsafe hof hparts hne hcollect hclosed hraces
      (hyields.tooFew chosen hchosen hne hcount), hclosed⟩

theorem isGenerator_two : Group.small.isGenerator 2 = true := by decide

/-- The race of the small election under the key of two authorities. -/
def jointElection : Election where
  key := ⟨Group.small, 2, 8, isGenerator_two, by decide⟩
  races := smallElection.races
  races_valid := smallElection.races_valid

/-- The shares of the two authorities. -/
def jointShares : List PrivateShare :=
  [⟨Group.small, 2, 2, 8, by decide, by decide, by decide, by decide⟩,
    ⟨Group.small, 1, 2, 2, by decide, by decide, by decide, by decide⟩]

/-- A vote for the first candidate, sealed under their key. -/
def jointBallot : SealedBallot :=
  ⟨"ballot", [7], [⟨"mayor", 1, Dict.ofList [("ann", ⟨⟨4, 9⟩, ⟨[4, 6], [5, 9]⟩⟩),
    ("ben", ⟨⟨16, 18⟩, ⟨[5, 7], [5, 8]⟩⟩)], ⟨9, 3⟩⟩]⟩

/-- A vote for the second candidate, made for a challenge. -/
def jointTestBallot : SealedBallot :=
  ⟨"test", [8], [⟨"mayor", 1, Dict.ofList [("ann", ⟨⟨18, 6⟩, ⟨[3, 6], [3, 7]⟩⟩),
    ("ben", ⟨⟨3, 8⟩, ⟨[9, 0], [1, 8]⟩⟩)], ⟨10, 6⟩⟩]⟩

/-- The totals and the challenged ballot are opened by both authorities together, and by one of them
    alone neither is. -/
theorem threshold_report_correct_joint :
    let engine := (new jointElection 5).afterAll [.record jointBallot [7], .confirm [7],
      .record jointTestBallot [8], .challenge [8], .close]
    (Ceremony.run 2 Ceremony.smallParty.reverse).1 = .ok (jointElection.key, jointShares) ∧
      engine.phase ≠ .reported ∧
      ∃ first second, DecryptionShare.AreFrom [first, second] jointShares engine.closedTally ∧
        (reportFromShares [second, first, second] engine).1 =
          .ok ⟨Dict.ofList [("mayor", Dict.ofList [("ann", 1), ("ben", 0)])],
            Dict.ofList [("test", testPlain)]⟩ ∧
        reportFromShares [second, second] engine =
          (.error (.refused (.notEnoughShares 1 2)), engine) := by
  intro engine
  let before : List Call :=
    [.record jointBallot [7], .confirm [7], .record jointTestBallot [8], .challenge [8]]
  let counted : Engine :=
    ((new jointElection 5).withBallot jointBallot [7]).withConfirmed jointBallot [7]
  let reached : Engine := (counted.withBallot jointTestBallot [8]).move [8] .challenged
  let closed : Engine := { reached with phase := .closed }
  have hbefore : (new jointElection 5).afterAll before = reached :=
    afterAll_counted_challenged ⟨rfl, rfl, by decide, by decide +kernel, rfl, rfl⟩
      ⟨rfl, rfl, by decide, by decide +kernel, rfl, rfl⟩
  have hclosed : (new jointElection 5).afterAll (before ++ .close :: []) = closed := by
    rw [afterAll_append, hbefore]
    rfl
  have hengine : engine = closed := hclosed
  rw [hengine]
  have hcreated : Ceremony.authorities Group.small 2 2 [3, 0, 5, 4, 0, 1] =
      (.ok Ceremony.smallParty, []) := rfl
  have hrun : (Ceremony.run 2 Ceremony.smallParty.reverse).1 =
      .ok (jointElection.key, jointShares) := by decide +kernel
  have helection : Election.new jointElection.key
      [("mayor", ⟨1, KeySet.ofKeys ["ann", "ben"]⟩)] = .ok jointElection := rfl
  have hclose : (close ((new jointElection 5).afterAll before)).1 = .ok closed.closedTally := by
    rw [hbefore]
    rfl
  have hphase : ((new jointElection 5).afterAll (before ++ .close :: [])).phase ≠ .reported := by
    rw [hclosed]
    decide
  obtain ⟨hparts, hreports⟩ := threshold_report_correct Group.small_isSafe hcreated
    (List.reverse_perm _) hrun helection 5 before [] hclose hphase
  rw [hclosed] at hreports hphase
  obtain ⟨first, hfirst⟩ := hparts jointShares[0] (by decide)
  obtain ⟨second, hsecond⟩ := hparts jointShares[1] (by decide)
  have hcombine : DecryptionKey.combine jointShares = .ok ⟨Group.small, 7⟩ := by decide +kernel
  refine ⟨hrun, hphase, first, second, .cons hfirst (.cons hsecond .nil), ?_, ?_⟩
  · have hfrom : DecryptionShare.AreFrom [second, first, second]
        [jointShares[1], jointShares[0], jointShares[1]] closed.closedTally :=
      .cons hsecond (.cons hfirst (.cons hsecond .nil))
    obtain ⟨henough, _⟩ := hreports _ _ (by decide) hfrom
    rw [hfrom.map_index] at henough
    obtain ⟨key, hkey, hsame, _⟩ := henough (by decide) jointShares (by decide) (by decide)
    obtain rfl := Except.ok.inj (hkey.symm.trans hcombine)
    refine (congrArg Prod.fst hsame).trans ?_
    decide +kernel
  · have hfrom : DecryptionShare.AreFrom [second, second] [jointShares[1], jointShares[1]]
        closed.closedTally := .cons hsecond (.cons hsecond .nil)
    obtain ⟨_, htooFew⟩ := hreports _ _ (by decide) hfrom
    rw [hfrom.map_index] at htooFew
    exact (htooFew (by simp) (by decide)).1

end Engine

end SecretBallot
