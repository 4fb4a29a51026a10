import Mathlib
import SecretBallot.Ciphertext
import SecretBallot.Proofs.ModularPower

namespace SecretBallot

namespace Group

variable (group : Group)

theorem p_pos : 0 < group.p := by
  have := group.five_le_p
  omega

theorem one_lt_p : 1 < group.p := by
  have := group.five_le_p
  omega

theorem p_eq : group.p = 2 * group.q + 1 := by
  have := group.five_le_p
  have := group.p_odd
  unfold q
  omega

theorem one_lt_q : 1 < group.q := by
  have := group.five_le_p
  unfold q
  omega

theorem q_pos : 0 < group.q :=
  Nat.zero_lt_of_lt group.one_lt_q

/-- Reducing after every step of a fold gives what reducing once gives. -/
private theorem foldl_mul_mod (m : Nat) (values : List Nat) (start : Nat) :
    values.foldl (fun acc value => acc * value % m) (start % m) = start * values.prod % m := by
  induction values generalizing start with
  | nil => simp
  | cons head tail ih =>
    rw [List.foldl_cons, Nat.mod_mul_mod, ih, List.prod_cons, Nat.mul_assoc]

private theorem foldl_add_mod (m : Nat) (values : List Nat) (start : Nat) :
    values.foldl (fun acc value => (acc + value) % m) (start % m) = (start + values.sum) % m := by
  induction values generalizing start with
  | nil => simp
  | cons head tail ih =>
    rw [List.foldl_cons, Nat.mod_add_mod, ih, List.sum_cons, Nat.add_assoc]

theorem product_eq (values : List Nat) : group.product values = values.prod % group.p := by
  have hfold := foldl_mul_mod group.p values 1
  rwa [Nat.mod_eq_of_lt group.one_lt_p, Nat.one_mul] at hfold

theorem sumQ_eq (values : List Nat) : group.sumQ values = values.sum % group.q := by
  have hfold := foldl_add_mod group.q values 0
  rwa [Nat.zero_mod, Nat.zero_add] at hfold

theorem product_perm {values others : List Nat} (hperm : values.Perm others) :
    group.product values = group.product others := by
  rw [product_eq, product_eq, hperm.prod_eq]

end Group

namespace Ciphertext

/-- A product of ciphertexts is taken component by component. -/
theorem combineAll_eq (group : Group) (ciphertexts : List Ciphertext) :
    combineAll group ciphertexts =
      ⟨group.product (ciphertexts.map (·.pad)), group.product (ciphertexts.map (·.data))⟩ := by
  have hfold (start : Ciphertext) : ciphertexts.foldl (combine group) start =
      ⟨(ciphertexts.map (·.pad)).foldl group.mul start.pad,
        (ciphertexts.map (·.data)).foldl group.mul start.data⟩ := by
    induction ciphertexts generalizing start with
    | nil => rfl
    | cons head tail ih => exact ih _
  exact hfold identity

theorem combineAll_perm (group : Group) {ciphertexts others : List Ciphertext}
    (hperm : ciphertexts.Perm others) :
    combineAll group ciphertexts = combineAll group others := by
  rw [combineAll_eq, combineAll_eq, group.product_perm (hperm.map _),
    group.product_perm (hperm.map _)]

/-- One more factor is multiplied in at the end. -/
theorem combineAll_concat (group : Group) (ciphertexts : List Ciphertext) (last : Ciphertext) :
    combineAll group (ciphertexts ++ [last]) = combine group (combineAll group ciphertexts) last :=
  List.foldl_concat _ _ _ _

end Ciphertext

end SecretBallot
