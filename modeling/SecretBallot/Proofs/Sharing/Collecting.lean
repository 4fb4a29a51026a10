import Mathlib
import SecretBallot.Key.Private
import SecretBallot.Proofs.Dict

namespace SecretBallot

theorem storePoint_eq_ok_iff {collected result : Dict UInt64 Nat} {index : UInt64} {value : Nat} :
    storePoint collected index value = .ok result ↔
      (∀ found, collected.get? index = some found → found = value) ∧
        result = collected.insert index value := by
  simp only [storePoint, bind_eq_ok_iff, ensure_eq_ok_iff, Option.all_eq_true, beq_iff_eq, pure,
    Except.pure, Except.ok.injEq]
  constructor
  · rintro ⟨_, hsame, rfl⟩
    exact ⟨hsame, rfl⟩
  · rintro ⟨hsame, rfl⟩
    exact ⟨(), hsame, rfl⟩

theorem exists_of_storePoint_eq_error {collected : Dict UInt64 Nat} {index : UInt64} {value : Nat}
    {error : Error} (hstore : storePoint collected index value = .error error) :
    error = .duplicateAuthority index.toNat ∧
      ∃ found, collected.get? index = some found ∧ found ≠ value := by
  rw [storePoint, ensure] at hstore
  by_cases hsame : (collected.get? index).all (· == value) = true
  · rw [if_pos hsame] at hstore
    cases hstore
  · rw [if_neg hsame] at hstore
    cases hstore
    simpa [Option.all_eq_true] using hsame

/-- The points stored one after the other. -/
def storeAll (collected : Dict UInt64 Nat) (points : List (UInt64 × Nat)) :
    Except Error (Dict UInt64 Nat) :=
  points.foldlM (fun collected point => storePoint collected point.1 point.2) collected

theorem storeAll_cons (collected : Dict UInt64 Nat) (point : UInt64 × Nat)
    (points : List (UInt64 × Nat)) : storeAll collected (point :: points) =
      (storePoint collected point.1 point.2 >>= fun collected => storeAll collected points) :=
  List.foldlM_cons

/-- What is collected is what was there and the points, and nothing else. -/
theorem storeAll_eq_ok_iff {collected result : Dict UInt64 Nat} {points : List (UInt64 × Nat)} :
    storeAll collected points = .ok result ↔ ∀ index value, result.get? index = some value ↔
      collected.get? index = some value ∨ (index, value) ∈ points := by
  induction points generalizing collected with
  | nil =>
    simp only [List.not_mem_nil, or_false]
    constructor
    · rintro hstore index value
      cases hstore
      rfl
    · intro hget
      exact congrArg Except.ok (Dict.ext_get? fun index => Option.ext fun value =>
        (hget index value).symm)
  | cons point points ih =>
    rw [storeAll_cons]
    cases hstore : storePoint collected point.1 point.2 with
    | ok next =>
      obtain ⟨hsame, rfl⟩ := storePoint_eq_ok_iff.1 hstore
      refine ih.trans (forall₂_congr fun index value => iff_congr Iff.rfl ?_)
      rw [Dict.get?_insert, List.mem_cons, Prod.ext_iff, ← or_assoc]
      refine or_congr_left ?_
      by_cases hindex : index = point.1
      · subst hindex
        rw [if_pos rfl, Option.some.injEq]
        constructor
        · intro hvalue
          exact .inr ⟨rfl, hvalue.symm⟩
        · rintro (hfound | ⟨_, hvalue⟩)
          · exact (hsame value hfound).symm
          · exact hvalue.symm
      · simp [hindex]
    | error error =>
      obtain ⟨_, found, hfound, hne⟩ := exists_of_storePoint_eq_error hstore
      constructor
      · intro herror
        cases herror
      · intro hget
        have hold := (hget point.1 found).2 (.inl hfound)
        have hnew := (hget point.1 point.2).2 (.inr List.mem_cons_self)
        exact absurd (Option.some.inj (hold.symm.trans hnew)) hne

/-- The order of the points does not matter for what is collected. -/
theorem storeAll_perm {collected result : Dict UInt64 Nat} {points others : List (UInt64 × Nat)}
    (hperm : others.Perm points) (hstore : storeAll collected points = .ok result) :
    storeAll collected others = .ok result := by
  rw [storeAll_eq_ok_iff] at hstore ⊢
  simpa only [hperm.mem_iff] using hstore

/-- Two values come under one index. -/
def Conflicts (points : List (UInt64 × Nat)) (index : UInt64) : Prop :=
  ∃ value other, value ≠ other ∧ (index, value) ∈ points ∧ (index, other) ∈ points

theorem Conflicts.perm {points others : List (UInt64 × Nat)} {index : UInt64}
    (hconflicts : Conflicts points index) (hperm : points.Perm others) :
    Conflicts others index := by
  obtain ⟨value, other, hne, hvalue, hother⟩ := hconflicts
  exact ⟨value, other, hne, hperm.mem_iff.1 hvalue, hperm.mem_iff.1 hother⟩

/-- A point that is refused conflicts with an earlier one, or with what was there before. -/
theorem exists_of_storeAll_eq_error {collected : Dict UInt64 Nat} {points : List (UInt64 × Nat)}
    {error : Error} (hstore : storeAll collected points = .error error) :
    ∃ index value found, error = .duplicateAuthority index.toNat ∧ found ≠ value ∧
      (index, value) ∈ points ∧ (collected.get? index = some found ∨ (index, found) ∈ points) := by
  induction points generalizing collected with
  | nil => cases hstore
  | cons point points ih =>
    rw [storeAll_cons] at hstore
    cases hpoint : storePoint collected point.1 point.2 with
    | error first =>
      rw [hpoint] at hstore
      cases hstore
      obtain ⟨herror, found, hfound, hne⟩ := exists_of_storePoint_eq_error hpoint
      exact ⟨point.1, point.2, found, herror, hne, List.mem_cons_self, .inl hfound⟩
    | ok next =>
      rw [hpoint] at hstore
      obtain ⟨index, value, found, herror, hne, hvalue, hfound⟩ := ih hstore
      obtain ⟨_, rfl⟩ := storePoint_eq_ok_iff.1 hpoint
      refine ⟨index, value, found, herror, hne, List.mem_cons_of_mem _ hvalue, ?_⟩
      rcases hfound with hfound | hfound
      · rw [Dict.get?_insert] at hfound
        by_cases hindex : index = point.1
        · rw [if_pos hindex, Option.some.injEq] at hfound
          subst hindex hfound
          exact .inr List.mem_cons_self
        · rw [if_neg hindex] at hfound
          exact .inl hfound
      · exact .inr (List.mem_cons_of_mem _ hfound)

/-- Points that cannot be stored conflict with one another, if there was nothing before them. -/
theorem conflicts_of_storeAll {points : List (UInt64 × Nat)} {error : Error}
    (hstore : storeAll ∅ points = .error error) :
    ∃ index, Conflicts points index ∧ error = .duplicateAuthority index.toNat := by
  obtain ⟨index, value, found, herror, hne, hvalue, hfound⟩ := exists_of_storeAll_eq_error hstore
  rcases hfound with hfound | hfound
  · cases hfound
  · exact ⟨index, ⟨found, value, hne, hfound, hvalue⟩, herror⟩

section Lowest

variable {threshold : UInt64} {collected : Dict UInt64 Nat}

theorem lowestPoints_of_le (hcount : threshold.toNat ≤ collected.size) :
    lowestPoints threshold collected = .ok ((collected.entries.take threshold.toNat).map
      fun entry => (entry.1.toNat, entry.2)) := by
  rw [lowestPoints, ensure_of _ hcount, ok_bind]
  rfl

theorem lowestPoints_of_lt (hcount : collected.size < threshold.toNat) :
    lowestPoints threshold collected =
      .error (.notEnoughShares collected.size threshold.toNat) := by
  rw [lowestPoints, ensure, if_neg (Nat.not_le.2 hcount), error_bind]

/-- The points of the lowest indices were collected. -/
theorem exists_of_mem_lowestPoints {points : List (Nat × Nat)}
    (hlowest : lowestPoints threshold collected = .ok points) {point : Nat × Nat}
    (hpoint : point ∈ points) :
    ∃ index, point.1 = index.toNat ∧ collected.get? index = some point.2 := by
  rw [lowestPoints] at hlowest
  obtain ⟨_, _, hlowest⟩ := bind_eq_ok_iff.1 hlowest
  rw [← Except.ok.inj hlowest] at hpoint
  obtain ⟨entry, hentry, rfl⟩ := List.mem_map.1 hpoint
  exact ⟨entry.1, rfl, Dict.get?_eq_some_iff.2 (List.mem_of_mem_take hentry)⟩

end Lowest

end SecretBallot
