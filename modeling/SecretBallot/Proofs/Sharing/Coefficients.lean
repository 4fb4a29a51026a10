import Mathlib
import SecretBallot.Proofs.Sharing.Polynomial

section

open Polynomial

namespace SecretBallot

/-- The sum of `c_k * x ^ k` over the coefficients, nothing reduced. -/
def powerSum (coefficients : List Nat) (x : Nat) : Nat :=
  ∑ k : Fin coefficients.length, coefficients[k] * x ^ (k : Nat)

theorem powerSum_cons (first : Nat) (rest : List Nat) (x : Nat) :
    powerSum (first :: rest) x = first + x * powerSum rest x := by
  have hshift (k : Fin rest.length) :
      rest[k] * x ^ ((k : Nat) + 1) = x * (rest[k] * x ^ (k : Nat)) := by
    ring
  calc powerSum (first :: rest) x
      = first * x ^ 0 + ∑ k : Fin rest.length, rest[k] * x ^ ((k : Nat) + 1) :=
        Fin.sum_univ_succ _
    _ = first + x * powerSum rest x := by
        rw [pow_zero, mul_one, powerSum, Finset.mul_sum, Finset.sum_congr rfl fun k _ => hshift k]

namespace Group

variable (group : Group)

theorem cast_powerSum (coefficients : List Nat) (x : Nat) :
    ((powerSum coefficients x : Nat) : ZMod group.q) =
      (group.polynomial coefficients).eval (x : ZMod group.q) := by
  induction coefficients with
  | nil =>
    rw [polynomial, eval_zero]
    exact Nat.cast_zero
  | cons first rest ih =>
    rw [powerSum_cons, polynomial, eval_add, eval_C, eval_mul, eval_X, Nat.cast_add, Nat.cast_mul,
      ih]

theorem coeff_polynomial (coefficients : List Nat) (k : Nat) :
    (group.polynomial coefficients).coeff k = ((coefficients.getD k 0 : Nat) : ZMod group.q) := by
  induction coefficients generalizing k with
  | nil => rw [polynomial, coeff_zero, List.getD_nil, Nat.cast_zero]
  | cons first rest ih =>
    rw [polynomial, coeff_add]
    cases k with
    | zero => rw [coeff_C_zero, coeff_X_mul_zero, add_zero, List.getD_cons_zero]
    | succ k => rw [coeff_C_succ, coeff_X_mul, zero_add, ih, List.getD_cons_succ]

/-- Vectors of reduced exponents. -/
def vectors (count : Nat) : Set (List Nat) :=
  {vector | vector.length = count ∧ ∀ entry ∈ vector, entry < group.q}

theorem vectors_eq_range (count : Nat) : group.vectors count =
    Set.range fun entries : Fin count → Fin group.q => List.ofFn fun k => (entries k : Nat) := by
  ext vector
  constructor
  · rintro ⟨rfl, hreduced⟩
    exact ⟨fun k => ⟨vector[k], hreduced _ (List.getElem_mem k.2)⟩, List.ofFn_getElem⟩
  · rintro ⟨entries, rfl⟩
    refine ⟨List.length_ofFn, fun entry hentry => ?_⟩
    obtain ⟨k, rfl⟩ := List.mem_ofFn.1 hentry
    exact (entries k).2

theorem finite_vectors (count : Nat) : (group.vectors count).Finite := by
  rw [vectors_eq_range]
  exact Set.finite_range _

theorem ncard_vectors (count : Nat) : (group.vectors count).ncard = group.q ^ count := by
  have hinj : Function.Injective
      fun entries : Fin count → Fin group.q => List.ofFn fun k => (entries k : Nat) := by
    intro entries others heq
    funext k
    exact Fin.val_injective (congrFun (List.ofFn_injective heq) k)
  rw [vectors_eq_range, Set.ncard_range_of_injective hinj, Nat.card_fun, Nat.card_fin, Nat.card_fin]

/-- The polynomials with so many coefficients have one vector of reduced coefficients each. -/
theorem bijOn_polynomial (count : Nat) :
    Set.BijOn group.polynomial (group.vectors count) {f | f.degree < count} := by
  have := NeZero.mk group.q_pos.ne'
  refine ⟨?_, ?_, ?_⟩
  · rintro vector ⟨rfl, _⟩
    exact group.degree_polynomial_lt vector
  · rintro vector ⟨hlength, hreduced⟩ other ⟨hsame, hother⟩ heq
    refine List.ext_getElem (hlength.trans hsame.symm) fun k hk hk' => ?_
    have hcoeff := congrArg (coeff · k) heq
    simp only [coeff_polynomial, List.getD_eq_getElem _ _ hk, List.getD_eq_getElem _ _ hk']
      at hcoeff
    exact group.eq_of_castQ_eq (hreduced _ (List.getElem_mem hk)) (hother _ (List.getElem_mem hk'))
      hcoeff
  · intro f hf
    refine ⟨List.ofFn fun k : Fin count => (f.coeff k).val, ⟨List.length_ofFn, ?_⟩, ?_⟩
    · intro entry hentry
      obtain ⟨k, rfl⟩ := List.mem_ofFn.1 hentry
      exact ZMod.val_lt _
    · ext k
      rw [coeff_polynomial]
      by_cases hk : k < count
      · rw [List.getD_eq_getElem _ _ (by rwa [List.length_ofFn]), List.getElem_ofFn,
          ZMod.natCast_zmod_val]
      · rw [List.getD_eq_default _ _ (by rw [List.length_ofFn]; exact not_lt.1 hk), Nat.cast_zero,
          (degree_lt_iff_coeff_zero f count).1 hf k (not_lt.1 hk)]

end Group

theorem Polynomial.evaluate_lt (polynomial : Polynomial) (group : Group) (x : Nat) :
    polynomial.evaluate group x < group.q := by
  rw [evaluate, Group.sumQ_eq]
  exact Nat.mod_lt _ group.q_pos

/-- Evaluation sums up the coefficients times powers and reduces the sum. -/
theorem Polynomial.evaluate_eq (polynomial : Polynomial) (group : Group) (x : Nat) :
    polynomial.evaluate group x = powerSum polynomial.coefficients x % group.q := by
  apply group.eq_of_castQ_eq (polynomial.evaluate_lt group x) (Nat.mod_lt _ group.q_pos)
  rw [cast_evaluate, ZMod.natCast_mod, Group.cast_powerSum]

end SecretBallot

end
