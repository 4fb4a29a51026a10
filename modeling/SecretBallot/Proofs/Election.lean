import Mathlib
import SecretBallot.Election.Context
import SecretBallot.Proofs.Dict

namespace SecretBallot

/-- A ballot that has no name twice has one race of each of its names, the one that is found. -/
theorem SealedBallot.race?_eq_some_iff {ballot : SealedBallot}
    (hnodup : (ballot.races.map (·.name)).Nodup) {name : String} {race : SealedRace} :
    ballot.race? name = some race ↔ race ∈ ballot.races ∧ race.name = name := by
  constructor
  · intro hfind
    exact ⟨List.mem_of_find?_eq_some hfind, by simpa using List.find?_some hfind⟩
  · rintro ⟨hrace, rfl⟩
    obtain ⟨found, hfind⟩ : ∃ found, ballot.race? race.name = some found :=
      Option.isSome_iff_exists.1 (List.find?_isSome.2 ⟨race, hrace, beq_self_eq_true _⟩)
    have hname : found.name = race.name := by simpa using List.find?_some hfind
    rw [hfind, List.inj_on_of_nodup_map hnodup (List.mem_of_find?_eq_some hfind) hrace hname]

namespace Election

/-- A race of a ballot is the one that the election defines under that name. -/
def Fits (election : Election) (race : SealedRace) : Prop :=
  ∃ definition, election.races.get? race.name = some definition ∧
    race.limit = definition.limit ∧ race.votes.keys = definition.candidates.keys

theorem checkRace_eq_ok_iff {election : Election} {seen result : List String} {race : SealedRace} :
    election.checkRace seen race = .ok result ↔
      election.Fits race ∧ race.name ∉ seen ∧ result = race.name :: seen := by
  unfold checkRace Fits
  rcases election.races.get? race.name with _ | definition
  · simp [throw, throwThe, MonadExceptOf.throw]
  · simp only [bind_eq_ok_iff, ensure_eq_ok_iff, pure, Except.pure, Except.ok.injEq]
    constructor
    · rintro ⟨_, hseen, _, hlimit, _, hkeys, rfl⟩
      exact ⟨⟨definition, rfl, hlimit, hkeys⟩, hseen, rfl⟩
    · rintro ⟨⟨_, hdefinition, hlimit, hkeys⟩, hseen, rfl⟩
      cases hdefinition
      exact ⟨(), hseen, (), hlimit, (), hkeys, rfl⟩

/-- The races pass one after the other if each fits and no name comes twice. -/
theorem foldlM_checkRace_eq_ok_iff {election : Election} {races : List SealedRace}
    {seen result : List String} (hseen : seen.Nodup) :
    races.foldlM election.checkRace seen = .ok result ↔
      (∀ race ∈ races, election.Fits race) ∧ ((races.map (·.name)).reverse ++ seen).Nodup ∧
        result = (races.map (·.name)).reverse ++ seen := by
  induction races generalizing seen with
  | nil => simp [hseen, pure, Except.pure, eq_comm]
  | cons race rest ih =>
    have happend : ((race :: rest).map (·.name)).reverse ++ seen =
        (rest.map (·.name)).reverse ++ race.name :: seen := by simp
    rw [List.foldlM_cons, bind_eq_ok_iff, happend, List.forall_mem_cons]
    constructor
    · rintro ⟨_, hrace, hrest⟩
      obtain ⟨hfits, hnew, rfl⟩ := checkRace_eq_ok_iff.1 hrace
      obtain ⟨hall, hnodup, hresult⟩ := (ih (List.nodup_cons.2 ⟨hnew, hseen⟩)).1 hrest
      exact ⟨⟨hfits, hall⟩, hnodup, hresult⟩
    · rintro ⟨⟨hfits, hall⟩, hnodup, hresult⟩
      have hcons := (List.nodup_append.1 hnodup).2.1
      refine ⟨race.name :: seen, ?_, (ih hcons).2 ⟨hall, hnodup, hresult⟩⟩
      exact checkRace_eq_ok_iff.2 ⟨hfits, (List.nodup_cons.1 hcons).1, rfl⟩

/-- Distinct names that the election defines are some of its names. -/
theorem names_subperm {election : Election} {races : List SealedRace}
    (hfits : ∀ race ∈ races, election.Fits race) (hnodup : (races.map (·.name)).Nodup) :
    (races.map (·.name)).Subperm election.races.keys := by
  refine hnodup.subperm fun name hname => ?_
  obtain ⟨race, hrace, rfl⟩ := List.mem_map.1 hname
  obtain ⟨definition, hdefinition, _⟩ := hfits race hrace
  exact Dict.mem_keys_iff.2 ⟨definition, hdefinition⟩

/-- A ballot passes exactly if it has the races of the election, each once and as defined. -/
theorem checkBallot_eq_ok_iff {election : Election} {ballot : SealedBallot} :
    election.checkBallot ballot = .ok () ↔
      (ballot.races.map (·.name)).Perm election.races.keys ∧
        ∀ race ∈ ballot.races, election.Fits race := by
  unfold checkBallot
  simp only [bind_eq_ok_iff, ensure_eq_ok_iff, foldlM_checkRace_eq_ok_iff List.nodup_nil,
    List.append_nil, List.nodup_reverse]
  constructor
  · rintro ⟨_, ⟨hfits, hnodup, rfl⟩, hlength⟩
    refine ⟨(names_subperm hfits hnodup).perm_of_length_le ?_, hfits⟩
    rw [Dict.length_keys, ← hlength, List.length_reverse]
  · rintro ⟨hperm, hfits⟩
    refine ⟨_, ⟨hfits, hperm.nodup_iff.2 election.races.keys_nodup, rfl⟩, ?_⟩
    rw [List.length_reverse, hperm.length_eq, Dict.length_keys]

/-- On a ballot that passes, every race of the election is found under its name. -/
theorem race?_of_checkBallot {election : Election} {ballot : SealedBallot}
    (hcheck : election.checkBallot ballot = .ok ()) {name : String} {definition : Race}
    (hdefinition : election.races.get? name = some definition) :
    ∃ race ∈ ballot.races, ballot.race? name = some race ∧ race.name = name ∧
      race.votes.keys = definition.candidates.keys := by
  obtain ⟨hperm, hfits⟩ := checkBallot_eq_ok_iff.1 hcheck
  have hnodup := hperm.nodup_iff.2 election.races.keys_nodup
  have hmem : name ∈ ballot.races.map (·.name) :=
    hperm.mem_iff.2 (Dict.mem_keys_iff.2 ⟨definition, hdefinition⟩)
  obtain ⟨race, hrace, rfl⟩ := List.mem_map.1 hmem
  obtain ⟨found, hfound, _, hkeys⟩ := hfits race hrace
  obtain rfl := Option.some.inj (hdefinition.symm.trans hfound)
  exact ⟨race, hrace, (SealedBallot.race?_eq_some_iff hnodup).2 ⟨hrace, rfl⟩, rfl, hkeys⟩

/-- What is wrong with a ballot, held against the election. -/
inductive HasFault (election : Election) (ballot : SealedBallot) : BallotFault → Prop
  | unknownRace {race : SealedRace} (hrace : race ∈ ballot.races)
      (hunknown : election.races.get? race.name = none) :
      HasFault election ballot (.unknownRace race.name)
  | raceTwice {name : String} (htwice : List.Duplicate name (ballot.races.map (·.name))) :
      HasFault election ballot (.raceTwice name)
  | wrongLimit {race : SealedRace} {definition : Race} (hrace : race ∈ ballot.races)
      (hdefinition : election.races.get? race.name = some definition)
      (hlimit : race.limit ≠ definition.limit) :
      HasFault election ballot
        (.wrongLimit race.name race.limit.toNat definition.limit.toNat)
  | wrongCandidates {race : SealedRace} {definition : Race} (hrace : race ∈ ballot.races)
      (hdefinition : election.races.get? race.name = some definition)
      (hkeys : race.votes.keys ≠ definition.candidates.keys) :
      HasFault election ballot (.wrongCandidates race.name)
  | racesMissing (hfewer : ballot.races.length < election.races.size) :
      HasFault election ballot (.racesMissing ballot.races.length election.races.size)

/-- A race that is stopped at has a fault, or the same name as a race before it. -/
theorem checkRace_eq_error {election : Election} {ballot : SealedBallot}
    {before after : List SealedRace} {race : SealedRace} {error : Error}
    (hraces : ballot.races = before ++ race :: after)
    (hcheck : election.checkRace (before.map (·.name)).reverse race = .error error) :
    ∃ fault, error = .ballotMismatch fault ∧ election.HasFault ballot fault := by
  have hrace : race ∈ ballot.races := by
    rw [hraces]
    exact List.mem_append_right _ List.mem_cons_self
  unfold checkRace at hcheck
  cases hdefinition : election.races.get? race.name with
  | none =>
    rw [hdefinition] at hcheck
    cases hcheck
    exact ⟨_, rfl, .unknownRace hrace hdefinition⟩
  | some definition =>
    simp only [hdefinition, ensure_bind_eq_error_iff] at hcheck
    obtain ⟨htwice, rfl⟩ | ⟨_, ⟨hlimit, rfl⟩ | ⟨_, ⟨hkeys, rfl⟩ | ⟨_, hpure⟩⟩⟩ := hcheck
    · refine ⟨_, rfl, .raceTwice ?_⟩
      have hbefore : race.name ∈ before.map (·.name) := List.mem_reverse.1 (not_not.1 htwice)
      rw [hraces, List.map_append, List.map_cons, List.duplicate_iff_sublist]
      exact (List.singleton_sublist.2 hbefore).append
        (List.singleton_sublist.2 List.mem_cons_self)
    · exact ⟨_, rfl, .wrongLimit hrace hdefinition hlimit⟩
    · exact ⟨_, rfl, .wrongCandidates hrace hdefinition hkeys⟩
    · cases hpure

/-- A ballot that does not pass is refused for a fault that it has. -/
theorem checkBallot_eq_error {election : Election} {ballot : SealedBallot} {error : Error}
    (hcheck : election.checkBallot ballot = .error error) :
    ∃ fault, error = .ballotMismatch fault ∧ election.HasFault ballot fault := by
  unfold checkBallot at hcheck
  cases hfold : ballot.races.foldlM election.checkRace [] with
  | error failure =>
    rw [hfold] at hcheck
    cases hcheck
    obtain ⟨before, race, after, reached, hraces, hbefore, hrace⟩ :=
      exists_of_foldlM_eq_error hfold
    obtain ⟨_, _, rfl⟩ := (foldlM_checkRace_eq_ok_iff List.nodup_nil).1 hbefore
    rw [List.append_nil] at hrace
    exact checkRace_eq_error hraces hrace
  | ok seen =>
    obtain ⟨hfits, hnodup, hseen⟩ := (foldlM_checkRace_eq_ok_iff List.nodup_nil).1 hfold
    rw [List.append_nil] at hnodup hseen
    have hlength : seen.length = ballot.races.length := by
      rw [hseen, List.length_reverse, List.length_map]
    rw [hfold, ok_bind, hlength] at hcheck
    have hle := (names_subperm hfits (List.nodup_reverse.1 hnodup)).length_le
    rw [List.length_map, Dict.length_keys] at hle
    by_cases hall : ballot.races.length = election.races.size
    · rw [ensure_of _ hall] at hcheck
      cases hcheck
    · rw [ensure, if_neg hall] at hcheck
      cases hcheck
      exact ⟨_, rfl, .racesMissing (Nat.lt_of_le_of_ne hle hall)⟩

/-- A ballot passes if and only if the names of its races are those of the election, each once and
    in any order, and every race has the limit and the set of candidates that its name stands for.
    Any other ballot is refused, for a fault that it has. On a ballot that passes, every race of the
    election is found as the one race of that name, and it has a vote on every candidate. -/
theorem checkBallot_exact (election : Election) (ballot : SealedBallot) :
    (election.checkBallot ballot = .ok () ↔
      (ballot.races.map (·.name)).Nodup ∧
      (ballot.races.map (·.name)).Perm election.races.keys ∧
      ∀ race ∈ ballot.races, ∃ definition,
        election.races.get? race.name = some definition ∧ race.limit = definition.limit ∧
        ∀ candidate, candidate ∈ race.votes.keys ↔ candidate ∈ definition.candidates.keys) ∧
    (election.checkBallot ballot ≠ .ok () → ∃ fault,
      election.checkBallot ballot = .error (.ballotMismatch fault) ∧
        election.HasFault ballot fault) ∧
    (election.checkBallot ballot = .ok () → ∀ name definition,
      election.races.get? name = some definition → ∃ race,
        ballot.race? name = some race ∧
        (∀ other, other ∈ ballot.races ∧ other.name = name ↔ other = race) ∧
        ∀ candidate ∈ definition.candidates.keys, ∃ vote,
          race.votes.get? candidate = some vote) := by
  refine ⟨?_, fun hrefused => ?_, fun hcheck name definition hdefinition => ?_⟩
  · rw [checkBallot_eq_ok_iff]
    constructor
    · rintro ⟨hperm, hfits⟩
      refine ⟨hperm.nodup_iff.2 election.races.keys_nodup, hperm, fun race hrace => ?_⟩
      obtain ⟨definition, hdefinition, hlimit, hkeys⟩ := hfits race hrace
      exact ⟨definition, hdefinition, hlimit, Dict.keys_eq_iff.1 hkeys⟩
    · rintro ⟨_, hperm, hraces⟩
      refine ⟨hperm, fun race hrace => ?_⟩
      obtain ⟨definition, hdefinition, hlimit, hmem⟩ := hraces race hrace
      exact ⟨definition, hdefinition, hlimit, Dict.keys_eq_iff.2 hmem⟩
  · cases hcheck : election.checkBallot ballot with
    | ok done => exact absurd hcheck hrefused
    | error error =>
      obtain ⟨fault, rfl, hfault⟩ := checkBallot_eq_error hcheck
      exact ⟨fault, rfl, hfault⟩
  · obtain ⟨race, _, hfind, _, hkeys⟩ := race?_of_checkBallot hcheck hdefinition
    have hnodup := (checkBallot_eq_ok_iff.1 hcheck).1.nodup_iff.2 election.races.keys_nodup
    refine ⟨race, hfind, fun other => ?_, fun candidate hcandidate => ?_⟩
    · rw [← SealedBallot.race?_eq_some_iff hnodup, hfind, Option.some_inj, eq_comm]
    · exact Dict.mem_keys_iff.1 (hkeys ▸ hcandidate)

end Election

end SecretBallot
