import Mathlib
import SecretBallot.Proofs.Group.Products
import SecretBallot.Proofs.ModularPower
import SecretBallot.Proofs.Outcome

namespace SecretBallot

namespace Group

/-- The modulus is a safe prime indeed, the test by which it was accepted did not err. -/
structure IsSafe (group : Group) : Prop where
  prime_p : group.p.Prime
  prime_q : group.q.Prime

/-- The group of order 11 in the residues modulo 23. -/
def small : Group :=
  ⟨23, 4, by decide, by decide, by decide, by decide, by decide, by decide⟩

theorem small_isSafe : small.IsSafe :=
  ⟨by norm_num [small], by norm_num [small, q]⟩

variable (group : Group)

theorem powMod_lt (base exp : Nat) : powMod base exp group.p < group.p := by
  rw [powMod_eq]
  exact Nat.mod_lt _ group.p_pos

theorem powG_lt (exp : Nat) : group.powG exp < group.p :=
  group.powMod_lt _ _

theorem mul_lt (a b : Nat) : group.mul a b < group.p :=
  Nat.mod_lt _ group.p_pos

theorem cast_powMod (base exp : Nat) :
    ((powMod base exp group.p : Nat) : ZMod group.p) = (base : ZMod group.p) ^ exp := by
  rw [powMod_eq, ZMod.natCast_mod, Nat.cast_pow]

theorem cast_powG (exp : Nat) :
    ((group.powG exp : Nat) : ZMod group.p) = (group.g : ZMod group.p) ^ exp :=
  group.cast_powMod _ _

theorem cast_mul (a b : Nat) : ((group.mul a b : Nat) : ZMod group.p) = a * b := by
  rw [mul, ZMod.natCast_mod, Nat.cast_mul]

theorem eq_of_cast_eq {a b : Nat} (ha : a < group.p) (hb : b < group.p)
    (hcast : (a : ZMod group.p) = b) : a = b :=
  ((ZMod.natCast_eq_natCast_iff a b group.p).1 hcast).eq_of_lt_of_lt ha hb

/-- Sums, products and negatives of exponents are those of residues modulo `q`. -/
@[simp] theorem cast_addQ (a b : Nat) : ((group.addQ a b : Nat) : ZMod group.q) = a + b := by
  rw [addQ, ZMod.natCast_mod, Nat.cast_add]

@[simp] theorem cast_mulQ (a b : Nat) : ((group.mulQ a b : Nat) : ZMod group.q) = a * b := by
  rw [mulQ, ZMod.natCast_mod, Nat.cast_mul]

@[simp] theorem cast_subQ (a b : Nat) : ((group.subQ a b : Nat) : ZMod group.q) = a - b := by
  have hle : b % group.q ≤ a % group.q + group.q :=
    (Nat.mod_lt b group.q_pos).le.trans (Nat.le_add_left _ _)
  rw [subQ, ZMod.natCast_mod, Nat.cast_sub hle, Nat.cast_add, ZMod.natCast_mod, ZMod.natCast_mod,
    ZMod.natCast_self, add_zero]

@[simp] theorem cast_negQ (a : Nat) : ((group.negQ a : Nat) : ZMod group.q) = -a := by
  rw [negQ, ZMod.natCast_mod, Nat.cast_sub (Nat.mod_lt a group.q_pos).le, ZMod.natCast_self,
    ZMod.natCast_mod, zero_sub]

@[simp] theorem cast_sumQ (values : List Nat) :
    ((group.sumQ values : Nat) : ZMod group.q) =
      (values.map (Nat.cast : Nat → ZMod group.q)).sum := by
  rw [sumQ_eq, ZMod.natCast_mod, Nat.cast_list_sum]

/-- Reduced exponents that are equal as residues are equal. -/
theorem eq_of_castQ_eq {a b : Nat} (ha : a < group.q) (hb : b < group.q)
    (hcast : (a : ZMod group.q) = b) : a = b :=
  ((ZMod.natCast_eq_natCast_iff a b group.q).1 hcast).eq_of_lt_of_lt ha hb

theorem injOn_castQ {exps : List Nat} (hreduced : ∀ exp ∈ exps, exp < group.q) :
    Set.InjOn (Nat.cast : Nat → ZMod group.q) exps.toFinset := by
  intro exp hexp other hother hcast
  exact group.eq_of_castQ_eq (hreduced exp (List.mem_toFinset.1 hexp))
    (hreduced other (List.mem_toFinset.1 hother)) hcast

@[simp] theorem powG_zero : group.powG 0 = 1 := by
  rw [powG, powMod_eq, pow_zero, Nat.mod_eq_of_lt group.one_lt_p]

@[simp] theorem powG_one : group.powG 1 = group.g := by
  rw [powG, powMod_eq, pow_one, Nat.mod_eq_of_lt group.g_lt_p]

/-- On powers of the generator a product is a sum of exponents, a power a product. -/
theorem mul_powG (a b : Nat) : group.mul (group.powG a) (group.powG b) = group.powG (a + b) := by
  refine group.eq_of_cast_eq (group.mul_lt _ _) (group.powG_lt _) ?_
  rw [cast_mul, cast_powG, cast_powG, cast_powG, pow_add]

theorem powMod_powG (a exp : Nat) : powMod (group.powG a) exp group.p = group.powG (a * exp) := by
  refine group.eq_of_cast_eq (group.powMod_lt _ _) (group.powG_lt _) ?_
  rw [cast_powMod, cast_powG, cast_powG, pow_mul]

theorem pow_powG (a exp : Nat) : group.pow (group.powG a) exp = .ok (group.powG (a * exp)) := by
  rw [pow, require_of _ (group.powG_lt a), ← powMod_powG]
  rfl

theorem product_powG (exps : List Nat) :
    group.product (exps.map group.powG) = group.powG exps.sum := by
  induction exps using List.reverseRecOn with
  | nil => exact group.powG_zero.symm
  | append_singleton exps last ih =>
    rw [product] at ih ⊢
    rw [List.map_append, List.foldl_append, ih, List.sum_append, List.sum_singleton, ← mul_powG]
    rfl

section Safe

variable {group} (hsafe : group.IsSafe)

include hsafe

theorem isPrimitiveRoot_g : IsPrimitiveRoot (group.g : ZMod group.p) group.q := by
  have := Fact.mk hsafe.prime_q
  have := Fact.mk hsafe.prime_p
  rw [IsPrimitiveRoot.iff_orderOf]
  refine orderOf_eq_prime ?_ fun hone => ?_
  · rw [← cast_powG, powG, q, group.g_order, Nat.cast_one]
  · have hg := group.eq_of_cast_eq group.g_lt_p group.one_lt_p (hone.trans Nat.cast_one.symm)
    exact group.one_lt_g.ne' hg

/-- Exponents matter modulo `q` only. -/
theorem powG_eq_powG_iff {a b : Nat} :
    group.powG a = group.powG b ↔ (a : ZMod group.q) = (b : ZMod group.q) := by
  have hroot := isPrimitiveRoot_g hsafe
  have hmod (exp : Nat) :
      (group.g : ZMod group.p) ^ exp = (group.g : ZMod group.p) ^ (exp % group.q) := by
    rw [hroot.eq_orderOf, pow_mod_orderOf]
  rw [ZMod.natCast_eq_natCast_iff]
  constructor
  · intro hpow
    have hcast := congrArg (Nat.cast : Nat → ZMod group.p) hpow
    rw [cast_powG, cast_powG, hmod a, hmod b] at hcast
    exact hroot.pow_inj (Nat.mod_lt _ group.q_pos) (Nat.mod_lt _ group.q_pos) hcast
  · intro hmodEq
    refine group.eq_of_cast_eq (group.powG_lt a) (group.powG_lt b) ?_
    rw [cast_powG, cast_powG, hmod a, hmod b, hmodEq]

theorem powG_eq_one_iff {exp : Nat} : group.powG exp = 1 ↔ (exp : ZMod group.q) = 0 := by
  rw [← group.powG_zero, powG_eq_powG_iff hsafe, Nat.cast_zero]

theorem powG_eq_powG_iff_of_lt {a b : Nat} (ha : a < group.q) (hb : b < group.q) :
    group.powG a = group.powG b ↔ a = b :=
  ⟨fun h => group.eq_of_castQ_eq ha hb ((powG_eq_powG_iff hsafe).1 h), congrArg _⟩

theorem isMember_powG (exp : Nat) : group.isMember (group.powG exp) = true := by
  have hpower : powMod (group.powG exp) group.q group.p = 1 := by
    rw [powMod_powG, powG_eq_one_iff hsafe, Nat.cast_mul, ZMod.natCast_self, mul_zero]
  have hne : group.powG exp ≠ 0 := fun hzero => by
    rw [hzero, powMod_eq, zero_pow group.q_pos.ne', Nat.zero_mod] at hpower
    cases hpower
  simp [isMember, hne, group.powG_lt, hpower]

/-- A member is a power of the generator, with one reduced exponent. -/
theorem exists_powG_eq {value : Nat} (hmember : group.isMember value = true) :
    ∃ exp < group.q, group.powG exp = value := by
  have := Fact.mk hsafe.prime_p
  have := NeZero.mk group.q_pos.ne'
  simp only [isMember, Bool.and_eq_true, bne_iff_ne, ne_eq, decide_eq_true_eq, beq_iff_eq]
    at hmember
  obtain ⟨⟨_, hlt⟩, hpower⟩ := hmember
  have hroot : (value : ZMod group.p) ^ group.q = 1 := by
    rw [← cast_powMod, hpower, Nat.cast_one]
  obtain ⟨exp, hexp, hvalue⟩ := (isPrimitiveRoot_g hsafe).eq_pow_of_pow_eq_one hroot
  exact ⟨exp, hexp, group.eq_of_cast_eq (group.powG_lt exp) hlt (by rw [cast_powG, hvalue])⟩

theorem exists_map_powG_eq {values : List Nat}
    (hmembers : ∀ value ∈ values, group.isMember value = true) :
    ∃ exps : List Nat, exps.map group.powG = values := by
  induction values with
  | nil => exact ⟨[], rfl⟩
  | cons head tail ih =>
    obtain ⟨hhead, htail⟩ := List.forall_mem_cons.1 hmembers
    obtain ⟨exp, _, hexp⟩ := exists_powG_eq hsafe hhead
    obtain ⟨exps, hexps⟩ := ih htail
    exact ⟨exp :: exps, by rw [List.map_cons, hexp, hexps]⟩

theorem isGenerator_powG {exp : Nat} :
    group.isGenerator (group.powG exp) = true ↔ (exp : ZMod group.q) ≠ 0 := by
  simp [isGenerator, isMember_powG hsafe, powG_eq_one_iff hsafe]

theorem invert_powG (exp : Nat) :
    group.invert (group.powG exp) = .ok (group.powG (group.negQ exp)) := by
  have hmember := isMember_powG hsafe exp
  simp only [isMember, Bool.and_eq_true, bne_iff_ne, ne_eq, decide_eq_true_eq] at hmember
  have hinverse : powMod (group.powG exp) (group.p - 2) group.p = group.powG (group.negQ exp) := by
    have hexp : group.p - 2 = 2 * group.q - 1 := by
      have := group.p_eq
      omega
    have hle : 1 ≤ 2 * group.q := by
      have := group.q_pos
      omega
    rw [powMod_powG, powG_eq_powG_iff hsafe, hexp, Nat.cast_mul, Nat.cast_sub hle, Nat.cast_mul,
      ZMod.natCast_self, cast_negQ]
    ring
  rw [invert, require_of _ hmember.1, hinverse]
  rfl

theorem div_powG (a b : Nat) :
    group.div (group.powG a) (group.powG b) = .ok (group.powG (group.subQ a b)) := by
  have hdifference : group.powG (a + group.negQ b) = group.powG (group.subQ a b) := by
    rw [powG_eq_powG_iff hsafe, Nat.cast_add, cast_negQ, cast_subQ, sub_eq_add_neg]
  rw [div, invert_powG hsafe, ← hdifference, ← mul_powG]
  rfl

end Safe

end Group

end SecretBallot
