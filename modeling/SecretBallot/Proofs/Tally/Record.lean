import Mathlib
import SecretBallot.Tally.Record
import SecretBallot.Proofs.Election
import SecretBallot.Proofs.Group.Products

namespace SecretBallot

/-- The encrypted vote for a candidate. -/
def SealedBallot.ciphertext? (ballot : SealedBallot) (race candidate : String) :
    Option Ciphertext := do
  let race ← ballot.race? race
  let vote ← race.votes.get? candidate
  pure vote.ciphertext

theorem SealedBallot.ciphertext?_eq_some_iff {ballot : SealedBallot} {race candidate : String}
    {ciphertext : Ciphertext} : ballot.ciphertext? race candidate = some ciphertext ↔
      ∃ found vote, ballot.race? race = some found ∧ found.votes.get? candidate = some vote ∧
        vote.ciphertext = ciphertext := by
  simp only [ciphertext?, Option.bind_eq_bind, Option.bind_eq_some_iff, Option.pure_def,
    Option.some.injEq, exists_and_left]

namespace TallyRecord

/-- A record of the race `name` is made of the given ballots and nothing else. -/
structure Counts (record : TallyRecord) (group : Group) (name : String) (race : Race)
    (ballots : List SealedBallot) : Prop where
  ids : ∀ id, record.ballots.contains id = true ↔ ∃ ballot ∈ ballots, ballot.id = id
  candidates : record.totals.keys = race.candidates.keys
  votes : ∀ candidate ∈ race.candidates.keys, ∀ ballot ∈ ballots,
    ∃ ciphertext, ballot.ciphertext? name candidate = some ciphertext
  totals : ∀ candidate ∈ race.candidates.keys, record.totals.get? candidate =
    some (Ciphertext.combineAll group (ballots.filterMap (·.ciphertext? name candidate)))

theorem keys_foldl_addVote (group : Group) (votes : List (String × SealedVote))
    (totals : Dict String Ciphertext) :
    (votes.foldl (addVote group) totals).keys = totals.keys := by
  induction votes generalizing totals with
  | nil => rfl
  | cons head tail ih =>
    rw [List.foldl_cons, ih, addVote, Dict.keys_modify]

theorem get?_foldl_addVote (group : Group) {votes : List (String × SealedVote)}
    (hkeys : (votes.map (·.1)).Nodup) (totals : Dict String Ciphertext) {candidate : String}
    {vote : SealedVote} (hvote : (candidate, vote) ∈ votes) :
    (votes.foldl (addVote group) totals).get? candidate =
      (totals.get? candidate).map fun total => total.combine group vote.ciphertext := by
  have untouched (votes : List (String × SealedVote)) (totals : Dict String Ciphertext)
      (habsent : candidate ∉ votes.map (·.1)) :
      (votes.foldl (addVote group) totals).get? candidate = totals.get? candidate := by
    induction votes generalizing totals with
    | nil => rfl
    | cons head tail ih =>
      simp only [List.map_cons, List.mem_cons, not_or] at habsent
      rw [List.foldl_cons, ih _ habsent.2, addVote, Dict.get?_modify]
      simp [habsent.1]
  induction votes generalizing totals with
  | nil => cases hvote
  | cons head tail ih =>
    simp only [List.map_cons, List.nodup_cons] at hkeys
    rw [List.foldl_cons]
    rcases List.mem_cons.1 hvote with rfl | hvote
    · rw [untouched tail _ hkeys.1, addVote, Dict.get?_modify]
      simp
    · have hne : candidate ≠ head.1 := by
        intro heq
        exact hkeys.1 (heq ▸ List.mem_map_of_mem (f := (·.1)) hvote)
      rw [ih hkeys.2 _ hvote, addVote, Dict.get?_modify]
      simp [hne]

theorem counts_new (group : Group) (name : String) (race : Race) :
    (TallyRecord.new race).Counts group name race [] where
  ids id := by
    rw [Dict.contains_iff]
    simp [TallyRecord.new]
  candidates := Dict.keys_map _ _
  votes := by simp
  totals candidate hcandidate := by
    obtain ⟨_, hget⟩ := Dict.mem_keys_iff.1 hcandidate
    simp [TallyRecord.new, hget, Ciphertext.combineAll]

/-- Counting does not depend on the order of the ballots. -/
theorem Counts.perm {record : TallyRecord} {group : Group} {name : String} {race : Race}
    {ballots others : List SealedBallot} (hcounts : record.Counts group name race ballots)
    (hperm : ballots.Perm others) : record.Counts group name race others where
  ids id := (hcounts.ids id).trans (exists_congr fun _ => and_congr_left fun _ => hperm.mem_iff)
  candidates := hcounts.candidates
  votes candidate hcandidate ballot hballot :=
    hcounts.votes candidate hcandidate ballot (hperm.mem_iff.2 hballot)
  totals candidate hcandidate := by
    rw [hcounts.totals candidate hcandidate, Ciphertext.combineAll_perm group (hperm.filterMap _)]

/-- A ballot that is not in the record yet is counted once. -/
theorem Counts.add {record : TallyRecord} {group : Group} {name : String} {race : Race}
    {ballots : List SealedBallot} (hcounts : record.Counts group name race ballots)
    {ballot : SealedBallot} {sealedRace : SealedRace} (hrace : ballot.race? name = some sealedRace)
    (hkeys : sealedRace.votes.keys = race.candidates.keys)
    (hnew : ∀ counted ∈ ballots, counted.id ≠ ballot.id) :
    (record.add group ballot.id sealedRace).Counts group name race (ballots ++ [ballot]) := by
  have hcontains : ¬ record.ballots.contains ballot.id = true := fun h => by
    obtain ⟨counted, hmem, hid⟩ := (hcounts.ids _).1 h
    exact hnew counted hmem hid
  have hvote : ∀ candidate ∈ race.candidates.keys, ∃ vote,
      (candidate, vote) ∈ sealedRace.votes.entries ∧
        ballot.ciphertext? name candidate = some vote.ciphertext := by
    intro candidate hcandidate
    obtain ⟨vote, hvote⟩ := Dict.mem_keys_iff.1 (hkeys ▸ hcandidate)
    exact ⟨vote, Dict.get?_eq_some_iff.1 hvote,
      SealedBallot.ciphertext?_eq_some_iff.2 ⟨sealedRace, vote, hrace, hvote, rfl⟩⟩
  rw [TallyRecord.add, if_neg hcontains]
  refine ⟨fun id => ?_, ?_, fun candidate hcandidate counted hcounted => ?_,
    fun candidate hcandidate => ?_⟩
  · rw [Dict.contains_iff, Dict.get?_insert]
    by_cases hid : id = ballot.id
    · simp [hid]
    · rw [if_neg hid, ← Dict.contains_iff, hcounts.ids]
      simp [Ne.symm hid]
  · exact (keys_foldl_addVote group _ _).trans hcounts.candidates
  · rcases List.mem_append.1 hcounted with hcounted | hcounted
    · exact hcounts.votes candidate hcandidate counted hcounted
    · obtain rfl := List.mem_singleton.1 hcounted
      obtain ⟨vote, _, hciphertext⟩ := hvote candidate hcandidate
      exact ⟨_, hciphertext⟩
  · obtain ⟨vote, hmem, hciphertext⟩ := hvote candidate hcandidate
    have hlast : [ballot].filterMap (·.ciphertext? name candidate) = [vote.ciphertext] := by
      simp [hciphertext]
    rw [get?_foldl_addVote group sealedRace.votes.keys_nodup _ hmem,
      hcounts.totals candidate hcandidate, List.filterMap_append, hlast,
      Ciphertext.combineAll_concat]
    rfl

/-- Two records of one race that count the same ballots are equal. -/
theorem Counts.unique {record other : TallyRecord} {group : Group} {name : String} {race : Race}
    {ballots : List SealedBallot} (hrecord : record.Counts group name race ballots)
    (hother : other.Counts group name race ballots) : record = other := by
  have htotals : record.totals = other.totals := Dict.ext_get? fun candidate => by
    by_cases hcandidate : candidate ∈ race.candidates.keys
    · rw [hrecord.totals candidate hcandidate, hother.totals candidate hcandidate]
    · have habsent (totals : Dict String Ciphertext) (hkeys : totals.keys = race.candidates.keys) :
          totals.get? candidate = none := by
        rw [← hkeys, Dict.mem_keys_iff, not_exists] at hcandidate
        exact Option.eq_none_iff_forall_ne_some.2 hcandidate
      rw [habsent _ hrecord.candidates, habsent _ hother.candidates]
  have hballots : record.ballots = other.ballots := Dict.ext_get? fun id => by
    have hiff := (hrecord.ids id).trans (hother.ids id).symm
    simp only [Dict.contains, Option.isSome_iff_exists] at hiff
    cases hfound : other.ballots.get? id with
    | none =>
      rw [hfound] at hiff
      exact Option.eq_none_iff_forall_ne_some.2 fun _ h => by simp [h] at hiff
    | some _ =>
      obtain ⟨_, h⟩ := hiff.2 ⟨_, hfound⟩
      exact h
  cases record
  cases other
  cases htotals
  cases hballots
  rfl

end TallyRecord

end SecretBallot
