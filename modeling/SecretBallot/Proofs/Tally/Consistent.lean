import Mathlib
import SecretBallot.Proofs.Tally.Effect
import SecretBallot.Proofs.Tally.Record

namespace SecretBallot

namespace Engine

/-- The ballot recorded under a nonce. -/
def ballot? (engine : Engine) (nonce : Bytes) : Option SealedBallot :=
  (engine.byNonce.get? nonce).map (·.ballot)

/-- The indexes, the ballots and the records of an engine agree. -/
structure Consistent (engine : Engine) : Prop where
  indexed : ∀ id nonce, engine.byId.get? id = some nonce ↔
    ∃ ballot, engine.ballot? nonce = some ballot ∧ ballot.id = id
  own_nonce : ∀ nonce ballot, engine.ballot? nonce = some ballot → ballot.nonce = nonce
  fits : ∀ nonce ballot, engine.ballot? nonce = some ballot →
    engine.election.checkBallot ballot = .ok ()
  proved : ∀ nonce ballot, engine.ballot? nonce = some ballot →
    ballot.verify engine.election.key = .ok ()
  races : engine.records.keys = engine.election.races.keys
  counted : ∀ name race, engine.election.races.get? name = some race →
    ∃ record, engine.records.get? name = some record ∧
      record.Counts engine.election.group name race (engine.inState .confirmed)

section Ballots

variable {engine : Engine} {ballot : SealedBallot} {nonce : Bytes}

theorem ballot?_withBallot (other : Bytes) : (engine.withBallot ballot nonce).ballot? other =
    if other = nonce then some ballot else engine.ballot? other := by
  rw [ballot?, withBallot, Dict.get?_insert]
  by_cases hother : other = nonce
  · rw [if_pos hother, if_pos hother, Option.map_some]
  · rw [if_neg hother, if_neg hother, ballot?]

theorem ballot?_move (state : BallotState) (other : Bytes) :
    (engine.move nonce state).ballot? other = engine.ballot? other := by
  rw [ballot?, move, Dict.get?_modify, Option.map_map, ballot?]
  congr 1
  funext entry
  by_cases hother : other = nonce <;> simp [hother]

theorem mem_inState {state : BallotState} :
    ballot ∈ engine.inState state ↔
      ∃ nonce, engine.byNonce.get? nonce = some ⟨ballot, state⟩ := by
  simp only [inState, List.mem_map, List.mem_filter, decide_eq_true_eq, Dict.mem_values_iff]
  constructor
  · rintro ⟨⟨found, reached⟩, ⟨⟨nonce, hget⟩, rfl⟩, rfl⟩
    exact ⟨nonce, hget⟩
  · rintro ⟨nonce, hget⟩
    exact ⟨_, ⟨⟨nonce, hget⟩, rfl⟩, rfl⟩

theorem ballot?_of_mem_inState {state : BallotState} (hmem : ballot ∈ engine.inState state) :
    ∃ nonce, engine.ballot? nonce = some ballot := by
  obtain ⟨nonce, hget⟩ := mem_inState.1 hmem
  exact ⟨nonce, by rw [ballot?, hget, Option.map_some]⟩

/-- The ballots in a state, picked from a list of entries. -/
private theorem inState_eq (engine : Engine) {entries : List (Bytes × Entry)}
    (hentries : engine.byNonce.entries = entries) (state : BallotState) : engine.inState state =
      (entries.filter (·.2.state = state)).map (·.2.ballot) := by
  rw [inState, Dict.values, hentries, List.filter_map, List.map_map]
  rfl

/-- A new ballot is in no other state than committed. -/
theorem inState_withBallot (hnew : engine.byNonce.get? nonce = none) {state : BallotState}
    (hstate : .committed ≠ state) :
    (engine.withBallot ballot nonce).inState state = engine.inState state := by
  obtain ⟨before, after, hold, hinsert⟩ := Dict.entries_insert ⟨ballot, .committed⟩ hnew
  rw [inState_eq engine hold, inState_eq (engine.withBallot ballot nonce) hinsert]
  simp [hstate]

/-- A ballot that moves joins the ballots of its new state. -/
theorem inState_move_perm (hentry : engine.byNonce.get? nonce = some ⟨ballot, .committed⟩)
    {state : BallotState} (hstate : .committed ≠ state) :
    ((engine.move nonce state).inState state).Perm (engine.inState state ++ [ballot]) := by
  obtain ⟨before, after, hold, hmodify⟩ :=
    Dict.entries_modify hentry fun entry => { entry with state }
  rw [inState_eq engine hold, inState_eq (engine.move nonce state) hmodify]
  simp only [List.filter_append, List.filter_cons, hstate, decide_true, decide_false, if_true,
    Bool.false_eq_true, if_false, List.map_append, List.map_cons, List.append_assoc]
  exact (List.perm_append_singleton ballot _).symm.append_left _

/-- A ballot that moves does not touch the other states, the one it leaves apart. -/
theorem inState_move (hentry : engine.byNonce.get? nonce = some ⟨ballot, .committed⟩)
    {state other : BallotState} (hcommitted : .committed ≠ other) (hother : state ≠ other) :
    (engine.move nonce state).inState other = engine.inState other := by
  obtain ⟨before, after, hold, hmodify⟩ :=
    Dict.entries_modify hentry fun entry => { entry with state }
  rw [inState_eq engine hold, inState_eq (engine.move nonce state) hmodify]
  simp [hcommitted, hother]

end Ballots

namespace Consistent

variable {engine : Engine} (hconsistent : engine.Consistent)

include hconsistent

/-- A ballot's id tells the nonce it is recorded under. -/
theorem nonce_eq {nonce other : Bytes} {ballot found : SealedBallot}
    (hballot : engine.ballot? nonce = some ballot) (hfound : engine.ballot? other = some found)
    (hid : ballot.id = found.id) : nonce = other := by
  have hnonce := (hconsistent.indexed ballot.id nonce).2 ⟨ballot, hballot, rfl⟩
  have hother := (hconsistent.indexed ballot.id other).2 ⟨found, hfound, hid.symm⟩
  exact Option.some.inj (hnonce.symm.trans hother)

/-- No id comes twice among the recorded ballots. -/
theorem recorded_ids_nodup : (engine.byNonce.entries.map (·.2.ballot.id)).Nodup := by
  have hentries : engine.byNonce.entries.Nodup := List.Nodup.of_map _ engine.byNonce.keys_nodup
  refine List.Nodup.map_on ?_ hentries
  intro a ha b hb hid
  have hget (entry : Bytes × Entry) (hmem : entry ∈ engine.byNonce.entries) :
      engine.byNonce.get? entry.1 = some entry.2 := Dict.get?_eq_some_iff.2 hmem
  have hballot (entry : Bytes × Entry) (hentry : engine.byNonce.get? entry.1 = some entry.2) :
      engine.ballot? entry.1 = some entry.2.ballot := by
    rw [ballot?, hentry, Option.map_some]
  have hnonce := hconsistent.nonce_eq (hballot a (hget a ha)) (hballot b (hget b hb)) hid
  refine Prod.ext hnonce (Option.some.inj ?_)
  rw [← hget a ha, ← hget b hb, hnonce]

/-- No id comes twice among the ballots in a state. -/
theorem ids_nodup (state : BallotState) : ((engine.inState state).map (·.id)).Nodup := by
  rw [inState_eq engine rfl, List.map_map]
  exact hconsistent.recorded_ids_nodup.sublist (List.filter_sublist.map _)

/-- A race that the election does not have has no record. -/
theorem get?_records_eq_none {name : String} (hrace : engine.election.races.get? name = none) :
    engine.records.get? name = none := by
  refine Option.eq_none_iff_forall_ne_some.2 fun record hrecord => ?_
  have hmem := Dict.mem_keys_iff.2 ⟨record, hrecord⟩
  rw [hconsistent.races, Dict.mem_keys_iff, hrace] at hmem
  cases hmem.choose_spec

theorem challenged_ids_nodup :
    (((engine.inState .challenged).map fun ballot => (ballot.id, ballot)).map (·.1)).Nodup := by
  rw [List.map_map]
  exact hconsistent.ids_nodup .challenged

/-- The indexes and the records of engines that hold the same ballots in the same states. -/
theorem of_same {other : Engine} (helection : other.election = engine.election)
    (hballot : ∀ nonce, other.ballot? nonce = engine.ballot? nonce) (hid : other.byId = engine.byId)
    (hrecords : other.records = engine.records)
    (hconfirmed : other.inState .confirmed = engine.inState .confirmed) : other.Consistent where
  indexed id nonce := by rw [hid, hballot, hconsistent.indexed]
  own_nonce nonce ballot h := hconsistent.own_nonce nonce ballot (hballot nonce ▸ h)
  fits nonce ballot h := helection ▸ hconsistent.fits nonce ballot (hballot nonce ▸ h)
  proved nonce ballot h := helection ▸ hconsistent.proved nonce ballot (hballot nonce ▸ h)
  races := by rw [hrecords, helection, hconsistent.races]
  counted name race hrace := by
    rw [hrecords, helection, hconfirmed]
    exact hconsistent.counted name race (helection ▸ hrace)

theorem withBallot {ballot : SealedBallot} {nonce : Bytes} (hadmits : engine.Admits ballot nonce) :
    (engine.withBallot ballot nonce).Consistent := by
  have hvacant : engine.ballot? nonce = none := by rw [ballot?, hadmits.new_nonce, Option.map_none]
  have hstored (holds : Bytes → SealedBallot → Prop) (hnew : holds nonce ballot)
      (hold : ∀ other found, engine.ballot? other = some found → holds other found) (other : Bytes)
      (found : SealedBallot)
      (hfound : (engine.withBallot ballot nonce).ballot? other = some found) :
      holds other found := by
    rw [ballot?_withBallot] at hfound
    by_cases hother : other = nonce
    · rw [if_pos hother] at hfound
      cases hfound
      exact hother ▸ hnew
    · rw [if_neg hother] at hfound
      exact hold other found hfound
  refine ⟨fun id other => ?_, ?_, ?_, ?_, hconsistent.races, fun name race hrace => ?_⟩
  · have hget : (engine.withBallot ballot nonce).byId.get? id =
        if id = ballot.id then some nonce else engine.byId.get? id := Dict.get?_insert _ _ _ _
    rw [hget, ballot?_withBallot]
    by_cases hid : id = ballot.id
    · subst hid
      rw [if_pos rfl]
      constructor
      · rintro hnonce
        cases hnonce
        exact ⟨ballot, if_pos rfl, rfl⟩
      · rintro ⟨found, hfound, hid⟩
        by_cases hother : other = nonce
        · rw [hother]
        · rw [if_neg hother] at hfound
          have hindexed := (hconsistent.indexed ballot.id other).2 ⟨found, hfound, hid⟩
          rw [hadmits.new_id] at hindexed
          cases hindexed
    · rw [if_neg hid, hconsistent.indexed]
      by_cases hother : other = nonce
      · subst hother
        rw [if_pos rfl, hvacant]
        simp [Ne.symm hid]
      · rw [if_neg hother]
  · exact hstored _ hadmits.own_nonce hconsistent.own_nonce
  · exact hstored (fun _ found => engine.election.checkBallot found = .ok ())
      hadmits.fits hconsistent.fits
  · exact hstored (fun _ found => found.verify engine.election.key = .ok ())
      hadmits.proved hconsistent.proved
  · rw [inState_withBallot hadmits.new_nonce (by decide)]
    exact hconsistent.counted name race hrace

theorem withConfirmed {ballot : SealedBallot} {nonce : Bytes}
    (hentry : engine.byNonce.get? nonce = some ⟨ballot, .committed⟩) :
    (engine.withConfirmed ballot nonce).Consistent := by
  have hmove (other : Bytes) : (engine.withConfirmed ballot nonce).ballot? other =
      engine.ballot? other := ballot?_move .confirmed other
  have hballot : engine.ballot? nonce = some ballot := by rw [ballot?, hentry, Option.map_some]
  have hnew : ∀ counted ∈ engine.inState .confirmed, counted.id ≠ ballot.id := by
    intro counted hcounted hid
    obtain ⟨other, hother⟩ := mem_inState.1 hcounted
    have hcounted : engine.ballot? other = some counted := by
      rw [ballot?, hother, Option.map_some]
    rw [hconsistent.nonce_eq hcounted hballot hid, hentry] at hother
    cases hother
  refine ⟨fun id other => ?_, fun other found hfound => ?_, fun other found hfound => ?_,
    fun other found hfound => ?_, ?_, fun name race hrace => ?_⟩
  · rw [hmove]
    exact hconsistent.indexed id other
  · exact hconsistent.own_nonce other found (hmove other ▸ hfound)
  · exact hconsistent.fits other found (hmove other ▸ hfound)
  · exact hconsistent.proved other found (hmove other ▸ hfound)
  · exact (Dict.keys_map _ _).trans hconsistent.races
  · obtain ⟨record, hrecord, hcounts⟩ := hconsistent.counted name race hrace
    obtain ⟨sealedRace, _, hsealed, _, hkeys⟩ :=
      Election.race?_of_checkBallot (hconsistent.fits nonce ballot hballot) hrace
    refine ⟨record.add engine.election.group ballot.id sealedRace, ?_, ?_⟩
    · refine (Dict.get?_map _ _ _).trans ?_
      rw [show (engine.move nonce .confirmed).records = engine.records from rfl, hrecord,
        Option.map_some, hsealed]
      rfl
    · exact (hcounts.add hsealed hkeys hnew).perm (inState_move_perm hentry (by decide)).symm

theorem move_challenged {ballot : SealedBallot} {nonce : Bytes}
    (hentry : engine.byNonce.get? nonce = some ⟨ballot, .committed⟩) :
    (engine.move nonce .challenged).Consistent :=
  hconsistent.of_same rfl (ballot?_move .challenged) rfl rfl
    (inState_move hentry (by decide) (by decide))

theorem change {changed : Engine} (hchange : engine.Change changed) :
    changed.Consistent ∧ changed.election = engine.election := by
  cases hchange with
  | none => exact ⟨hconsistent, rfl⟩
  | record ballot nonce hadmits => exact ⟨hconsistent.withBallot hadmits, rfl⟩
  | confirm ballot nonce _ hentry => exact ⟨hconsistent.withConfirmed hentry, rfl⟩
  | challenge ballot nonce _ hentry => exact ⟨hconsistent.move_challenged hentry, rfl⟩
  | phase phase => exact ⟨hconsistent.of_same rfl (fun _ => rfl) rfl rfl rfl, rfl⟩

section Same

variable {other : Engine} (hother : other.Consistent)

include hother

/-- Engines with the same ballots in a state list them in the same way up to order. -/
theorem inState_perm {state : BallotState}
    (hsame : ∀ ballot, ballot ∈ engine.inState state ↔ ballot ∈ other.inState state) :
    (engine.inState state).Perm (other.inState state) :=
  (List.perm_ext_iff_of_nodup (.of_map _ (hconsistent.ids_nodup state))
    (.of_map _ (hother.ids_nodup state))).2 hsame

/-- The records are determined by the confirmed ballots. -/
theorem records_eq (helection : engine.election = other.election)
    (hsame : ∀ ballot, ballot ∈ engine.inState .confirmed ↔ ballot ∈ other.inState .confirmed) :
    engine.records = other.records := Dict.ext_get? fun name => by
  cases hrace : engine.election.races.get? name with
  | none =>
    rw [hconsistent.get?_records_eq_none hrace, hother.get?_records_eq_none (helection ▸ hrace)]
  | some race =>
    obtain ⟨record, hrecord, hcounts⟩ := hconsistent.counted name race hrace
    obtain ⟨found, hfound, hcounted⟩ := hother.counted name race (helection ▸ hrace)
    have hperm := hconsistent.inState_perm hother hsame
    rw [← helection] at hcounted
    rw [hrecord, hfound, (hcounts.perm hperm).unique hcounted]

/-- What is left to decrypt is determined by the confirmed and the challenged ballots. -/
theorem closedTally_eq (helection : engine.election = other.election)
    (hconfirmed : ∀ ballot, ballot ∈ engine.inState .confirmed ↔ ballot ∈ other.inState .confirmed)
    (hchallenged : ∀ ballot,
      ballot ∈ engine.inState .challenged ↔ ballot ∈ other.inState .challenged) :
    engine.closedTally = other.closedTally := by
  have hballots : engine.challenged = other.challenged := by
    refine congrArg Dict.values (Dict.ext_get? fun id => Option.ext fun ballot => ?_)
    rw [Dict.get?_ofList hconsistent.challenged_ids_nodup,
      Dict.get?_ofList hother.challenged_ids_nodup]
    simp only [List.mem_map, hchallenged]
  rw [closedTally, closedTally, hballots, hconsistent.records_eq hother helection hconfirmed]

end Same

end Consistent

theorem consistent_new (election : Election) (bound : Nat) :
    (Engine.new election bound).Consistent where
  indexed id nonce := by simp [Engine.new, ballot?]
  own_nonce nonce ballot hballot := by simp [Engine.new, ballot?] at hballot
  fits nonce ballot hballot := by simp [Engine.new, ballot?] at hballot
  proved nonce ballot hballot := by simp [Engine.new, ballot?] at hballot
  races := Dict.keys_map _ _
  counted name race hrace := by
    refine ⟨TallyRecord.new race, ?_, TallyRecord.counts_new _ name race⟩
    change election.races.get? name = some race at hrace
    rw [Engine.new, Dict.get?_map, hrace, Option.map_some]

/-- A run keeps an engine consistent, and its election as it is. -/
theorem consistent_afterAll (election : Election) (bound : Nat) (calls : List Call) :
    ((Engine.new election bound).afterAll calls).Consistent ∧
      ((Engine.new election bound).afterAll calls).election = election := by
  refine afterAll_of_change (fun engine => engine.Consistent ∧ engine.election = election)
    ?_ ⟨consistent_new election bound, rfl⟩ calls
  rintro engine changed ⟨hconsistent, rfl⟩ hchange
  exact hconsistent.change hchange

/-- After every run the indexes, the ballots and the records agree and every confirmed ballot is
    counted exactly once. So which ballots were confirmed decides what was counted, not their order
    or the calls that led there; with the challenged ballots it decides what is left to decrypt. -/
theorem counted_once_after_every_run (election : Election) (bound : Nat) (calls : List Call) :
    let engine := (Engine.new election bound).afterAll calls
    engine.election = election ∧ engine.Consistent ∧
      (∀ state, ((engine.inState state).map (·.id)).Nodup) ∧
      ∀ (otherBound : Nat) (otherCalls : List Call),
        let other := (Engine.new election otherBound).afterAll otherCalls
        (∀ ballot, ballot ∈ engine.inState .confirmed ↔ ballot ∈ other.inState .confirmed) →
          engine.records = other.records ∧
            ((∀ ballot, ballot ∈ engine.inState .challenged ↔ ballot ∈ other.inState .challenged) →
              engine.closedTally = other.closedTally) := by
  intro engine
  obtain ⟨hconsistent, helection⟩ := consistent_afterAll election bound calls
  refine ⟨helection, hconsistent, hconsistent.ids_nodup, fun otherBound otherCalls => ?_⟩
  intro other hconfirmed
  obtain ⟨hother, hotherElection⟩ := consistent_afterAll election otherBound otherCalls
  have hsame : engine.election = other.election := helection.trans hotherElection.symm
  exact ⟨hconsistent.records_eq hother hsame hconfirmed,
    fun hchallenged => hconsistent.closedTally_eq hother hsame hconfirmed hchallenged⟩

end Engine

end SecretBallot
