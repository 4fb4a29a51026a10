import Mathlib
import SecretBallot.Proofs.Sharing.Lagrange
import SecretBallot.Proofs.Sharing.Polynomial

namespace SecretBallot

namespace Group

variable {group : Group}

theorem weightAtZero_perm {indices others : List Nat} (hperm : others.Perm indices) (i : Nat) :
    group.weightAtZero others i = group.weightAtZero indices i :=
  ((hperm.filter _).map _).prod_eq

/-- Indices in another order have the same coefficients in that order. -/
theorem lagranges_perm (hsafe : group.IsSafe) {indices others : List Nat} {weight : Nat → Nat}
    (hperm : others.Perm indices) (hreduced : ∀ index ∈ indices, index < group.q)
    (hweight : ∀ index ∈ indices, weight index < group.q ∧
      (weight index : ZMod group.q) = group.weightAtZero indices index) :
    group.lagranges others = .ok (others.map weight) := by
  obtain ⟨found, hfound, hvalues⟩ :=
    exists_weights hsafe fun index hindex => hreduced index (hperm.mem_iff.1 hindex)
  rw [hfound]
  refine congrArg Except.ok (List.map_congr_left fun index hindex => ?_)
  obtain ⟨hlt, hvalue⟩ := hvalues index hindex
  obtain ⟨hlt', hvalue'⟩ := hweight index (hperm.mem_iff.1 hindex)
  refine group.eq_of_castQ_eq hlt hlt' ?_
  rw [hvalue, hvalue', weightAtZero_perm hperm]

/-- Distinct reduced indices have coefficients, the same for every order of the indices. For every
    polynomial with no more coefficients than there are indices, the sum of its values at the
    indices times their coefficients is congruent to its value at zero. -/
theorem lagranges_interpolate (hsafe : group.IsSafe) {indices : List Nat}
    (hnodup : indices.Nodup) (hreduced : ∀ index ∈ indices, index < group.q) :
    ∃ coefficient : Nat → Nat,
      (∀ others, others.Perm indices → group.lagranges others = .ok (others.map coefficient)) ∧
      ∀ polynomial : Polynomial, polynomial.coefficients.length ≤ indices.length →
        (indices.map fun index => coefficient index * polynomial.evaluate group index).sum ≡
          polynomial.evaluate group 0 [MOD group.q] := by
  obtain ⟨weight, _, hweight⟩ := exists_weights hsafe hreduced
  refine ⟨weight, fun others hperm => lagranges_perm hsafe hperm hreduced hweight,
    fun polynomial hfew => ?_⟩
  have hdegree : (group.polynomial polynomial.coefficients).degree < indices.length :=
    (group.degree_polynomial_lt _).trans_le (Nat.cast_le.2 hfew)
  rw [← ZMod.natCast_eq_natCast_iff, Polynomial.cast_evaluate, Nat.cast_zero,
    ← sum_weightAtZero hsafe hnodup hreduced hdegree, Nat.cast_list_sum, List.map_map]
  congr 1
  refine List.map_congr_left fun index hindex => ?_
  rw [Function.comp_apply, Nat.cast_mul, Polynomial.cast_evaluate, (hweight index hindex).2]

/-- In the group of order 11, three values of a polynomial with the constant term 5. -/
theorem lagranges_interpolate_small :
    small.IsSafe ∧ [3, 1, 7].Nodup ∧ (∀ index ∈ [3, 1, 7], index < small.q) ∧
      ∃ coefficient : Nat → Nat,
        small.lagranges [3, 1, 7] = .ok ([3, 1, 7].map coefficient) ∧
        small.lagranges [7, 3, 1] = .ok ([7, 3, 1].map coefficient) ∧
        ([3, 1, 7].map fun index =>
          coefficient index * (⟨[5, 3, 9]⟩ : Polynomial).evaluate small index).sum ≡
            5 [MOD 11] := by
  have hnodup : [3, 1, 7].Nodup := by decide
  have hreduced : ∀ index ∈ [3, 1, 7], index < small.q := by decide
  obtain ⟨coefficient, horder, hsum⟩ := lagranges_interpolate small_isSafe hnodup hreduced
  have hother : [7, 3, 1].Perm [3, 1, 7] := by decide
  have hconstant : (⟨[5, 3, 9]⟩ : Polynomial).evaluate small 0 = 5 := by decide
  refine ⟨small_isSafe, hnodup, hreduced, coefficient, horder _ (List.Perm.refl _),
    horder _ hother, ?_⟩
  have hvalue := hsum ⟨[5, 3, 9]⟩ (by decide)
  rwa [hconstant] at hvalue

end Group

end SecretBallot
