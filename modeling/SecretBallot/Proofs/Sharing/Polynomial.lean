import Mathlib
import SecretBallot.Sharing.Polynomial
import SecretBallot.Proofs.Group.Subgroup

section

open Polynomial

namespace SecretBallot

namespace Group

/-- The polynomial with the given coefficients, the constant term first. -/
noncomputable def polynomial (group : Group) : List Nat → (ZMod group.q)[X]
  | [] => 0
  | first :: rest => C (first : ZMod group.q) + X * polynomial group rest

variable (group : Group)

theorem degree_polynomial_lt (coefficients : List Nat) :
    (group.polynomial coefficients).degree < coefficients.length := by
  induction coefficients with
  | nil =>
    rw [polynomial, degree_zero]
    exact WithBot.bot_lt_coe 0
  | cons first rest ih =>
    have hconstant : (C (first : ZMod group.q)).degree < ((first :: rest).length : WithBot Nat) :=
      degree_C_le.trans_lt (by exact_mod_cast rest.length.succ_pos)
    have hshifted : (X * group.polynomial rest).degree <
        ((first :: rest).length : WithBot Nat) := by
      rw [mul_comm]
      by_cases hzero : group.polynomial rest = 0
      · rw [hzero, zero_mul, degree_zero]
        exact WithBot.bot_lt_coe _
      · rw [degree_eq_natDegree hzero] at ih
        refine (degree_mul_le _ _).trans_lt ?_
        rw [degree_eq_natDegree hzero]
        refine (add_le_add le_rfl degree_X_le).trans_lt ?_
        rw [List.length_cons]
        have hlt : (group.polynomial rest).natDegree < rest.length := by exact_mod_cast ih
        exact_mod_cast Nat.succ_lt_succ hlt
    exact (degree_add_le _ _).trans_lt (max_lt hconstant hshifted)

theorem eval_zero_polynomial (first : Nat) (rest : List Nat) :
    (group.polynomial (first :: rest)).eval 0 = first := by
  rw [polynomial, eval_add, eval_C, eval_mul, eval_X, zero_mul, add_zero]

/-- The constant term of a sum is the sum of the constant terms. -/
theorem eval_zero_sum {α : Type} {f : α → (ZMod group.q)[X]} {secret : α → Nat} {list : List α}
    (hf : ∀ element ∈ list, (f element).eval 0 = secret element) :
    (list.map f).sum.eval 0 = ((list.map secret).sum : Nat) := by
  rw [eval_listSum, Nat.cast_list_sum, List.map_map, List.map_map]
  congr 1
  exact List.map_congr_left hf

theorem degree_sum_lt {α : Type} {f : α → (ZMod group.q)[X]} {list : List α} {bound : Nat}
    (hf : ∀ element ∈ list, (f element).degree < bound) : (list.map f).sum.degree < bound := by
  rw [← mem_degreeLT]
  refine list_sum_mem fun polynomial hmem => ?_
  obtain ⟨element, helement, rfl⟩ := List.mem_map.1 hmem
  exact mem_degreeLT.2 (hf element helement)

/-- The polynomial is determined by the powers of its coefficients. -/
theorem polynomial_congr {group : Group} (hsafe : group.IsSafe) {exps others : List Nat}
    (hpowers : exps.map group.powG = others.map group.powG) :
    group.polynomial exps = group.polynomial others := by
  induction exps generalizing others with
  | nil =>
    cases others with
    | nil => rfl
    | cons first rest => cases hpowers
  | cons exp exps ih =>
    cases others with
    | nil => cases hpowers
    | cons other others =>
      rw [List.map_cons, List.map_cons, List.cons.injEq, powG_eq_powG_iff hsafe] at hpowers
      rw [polynomial, polynomial, hpowers.1, ih hpowers.2]

/-- Powers that are read off a list by their places are the ones that follow. -/
theorem extendPowersQ_iterate (x more count : Nat) {powers : List Nat} (htwo : 2 ≤ powers.length)
    (hpowers : powers = List.iterate (group.mulQ x) 1 (count + 2)) :
    group.extendPowersQ more powers htwo = List.iterate (group.mulQ x) 1 (count + 2 + more) := by
  induction more generalizing count powers with
  | zero => exact hpowers
  | succ more ih =>
    have hnext : group.mulQ powers[1] powers[powers.length - 1] =
        (group.mulQ x)^[count + 2] 1 := by
      subst hpowers
      simp only [List.getElem_iterate, List.length_iterate, Function.iterate_one]
      rw [Function.iterate_succ_apply', mulQ, mulQ, mulQ, Nat.mul_one, Nat.mod_mul_mod]
      rfl
    have hlength : count + 1 + 2 + more = count + 2 + (more + 1) := by omega
    rw [extendPowersQ, ih (count + 1), hlength]
    rw [hnext, hpowers, Nat.add_right_comm, List.iterate_add _ _ (count + 2)]
    rfl

theorem powersQ_eq_iterate (x count : Nat) :
    group.powersQ x count = List.iterate (group.mulQ x) 1 count := by
  have hfirst : [1, x % group.q] = List.iterate (group.mulQ x) 1 (0 + 2) := by
    rw [List.iterate, List.iterate, List.iterate, mulQ, Nat.mul_one]
  rw [powersQ, group.extendPowersQ_iterate x _ 0 _ hfirst, List.take_iterate]
  congr 1
  omega

/-- Coefficients weighted by successive powers add up to the value of the polynomial. -/
theorem sum_mul_iterate (x power : Nat) (coefficients : List Nat) :
    (((List.zipWith (· * ·) coefficients
      (List.iterate (group.mulQ x) power coefficients.length)).sum : Nat) : ZMod group.q) =
      power * (group.polynomial coefficients).eval (x : ZMod group.q) := by
  induction coefficients generalizing power with
  | nil =>
    rw [polynomial, eval_zero, mul_zero]
    exact Nat.cast_zero
  | cons first rest ih =>
    rw [List.length_cons, List.iterate, List.zipWith_cons_cons, List.sum_cons, Nat.cast_add, ih,
      Nat.cast_mul, cast_mulQ, polynomial, eval_add, eval_C, eval_mul, eval_X]
    ring

theorem sum_mul_powersQ (x : Nat) (coefficients : List Nat) :
    (((List.zipWith (· * ·) coefficients (group.powersQ x coefficients.length)).sum : Nat) :
      ZMod group.q) = (group.polynomial coefficients).eval (x : ZMod group.q) := by
  rw [powersQ_eq_iterate, sum_mul_iterate, Nat.cast_one, one_mul]

end Group

/-- Evaluation gives the value of the polynomial that the coefficients form. -/
theorem Polynomial.cast_evaluate (polynomial : Polynomial) (group : Group) (x : Nat) :
    ((polynomial.evaluate group x : Nat) : ZMod group.q) =
      (group.polynomial polynomial.coefficients).eval (x : ZMod group.q) := by
  rw [evaluate, Group.cast_sumQ, List.map_zipWith, ← Group.sum_mul_powersQ, Nat.cast_list_sum,
    List.map_zipWith]
  simp only [Group.cast_mulQ, Nat.cast_mul]

namespace Commitment

/-- A share verifies against powers of the generator exactly if it is the value of the polynomial
    that the exponents form. -/
theorem verifyShare_map_powG {group : Group} (hsafe : group.IsSafe) (exps : List Nat)
    (x share : Nat) : (⟨exps.map group.powG⟩ : Commitment).verifyShare group x share =
      .ok (decide ((share : ZMod group.q) = (group.polynomial exps).eval (x : ZMod group.q))) := by
  have hmembers : (exps.map group.powG).all group.isMember = true := by
    rw [List.all_eq_true]
    intro element helement
    obtain ⟨exp, _, rfl⟩ := List.mem_map.1 helement
    exact Group.isMember_powG hsafe exp
  have hfactors : ((exps.map group.powG).zip (group.powersQ x exps.length)).mapM
      (fun entry => group.pow entry.1 entry.2) =
      .ok ((List.zipWith (· * ·) exps (group.powersQ x exps.length)).map group.powG) := by
    have hpow : ∀ entry ∈ (exps.map group.powG).zip (group.powersQ x exps.length),
        group.pow entry.1 entry.2 = .ok (powMod entry.1 entry.2 group.p) := by
      intro entry hentry
      obtain ⟨exp, _, hexp⟩ := List.mem_map.1 (List.of_mem_zip hentry).1
      rw [← hexp, Group.pow_powG, Group.powMod_powG]
    rw [mapM_eq_ok hpow, List.zip_map_left, List.map_map, List.map_zipWith, List.zip_eq_zipWith,
      List.map_zipWith]
    simp only [Function.comp_apply, Prod.map, id, Group.powMod_powG]
  rw [verifyShare, if_pos hmembers]
  change ((exps.map group.powG).zip (group.powersQ x (exps.map group.powG).length)).mapM
    (fun entry => group.pow entry.1 entry.2) >>= _ = _
  rw [List.length_map, hfactors]
  change Except.ok (group.powG share == group.product _) = _
  refine congrArg Except.ok (Bool.eq_iff_iff.2 ?_)
  rw [beq_iff_eq, decide_eq_true_iff, Group.product_powG, Group.powG_eq_powG_iff hsafe,
    Group.sum_mul_powersQ]

/-- Elements outside the subgroup never verify a share. -/
theorem isMember_of_verifyShare {group : Group} {commitment : Commitment} {x share : Nat}
    (hverify : commitment.verifyShare group x share = .ok true) :
    ∀ element ∈ commitment.elements, group.isMember element = true := by
  rw [verifyShare] at hverify
  by_cases hmembers : commitment.elements.all group.isMember = true
  · exact List.all_eq_true.1 hmembers
  · rw [if_neg hmembers] at hverify
    cases hverify

end Commitment

end SecretBallot

end
