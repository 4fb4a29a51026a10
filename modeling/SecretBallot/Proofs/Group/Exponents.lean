import Mathlib
import SecretBallot.Proofs.Group.Subgroup

namespace SecretBallot

namespace Group

variable (group : Group)

/-- Membership as an equation of residues. -/
theorem isMember_iff {value : Nat} : group.isMember value = true ↔
    value < group.p ∧ (value : ZMod group.p) ^ group.q = 1 := by
  have hone : (1 : Nat) < group.p := group.one_lt_p
  have hpower : powMod value group.q group.p = 1 ↔ (value : ZMod group.p) ^ group.q = 1 := by
    constructor
    · intro hvalue
      rw [← cast_powMod, hvalue, Nat.cast_one]
    · intro hroot
      refine group.eq_of_cast_eq (group.powMod_lt _ _) hone ?_
      rw [cast_powMod, hroot, Nat.cast_one]
  simp only [isMember, Bool.and_eq_true, bne_iff_ne, ne_eq, decide_eq_true_eq, beq_iff_eq, hpower]
  constructor
  · rintro ⟨⟨_, hlt⟩, horder⟩
    exact ⟨hlt, horder⟩
  · rintro ⟨hlt, horder⟩
    refine ⟨⟨fun hzero => ?_, hlt⟩, horder⟩
    have := Fact.mk hone
    rw [hzero, Nat.cast_zero, zero_pow group.q_pos.ne'] at horder
    exact zero_ne_one horder

theorem lt_p_of_isMember {value : Nat} (hmember : group.isMember value = true) :
    value < group.p :=
  (group.isMember_iff.1 hmember).1

theorem pow_eq_ok {base : Nat} (hbase : base < group.p) (exp : Nat) :
    group.pow base exp = .ok (powMod base exp group.p) := by
  rw [pow, require_of _ hbase]
  rfl

theorem isMember_g : group.isMember group.g = true := by
  refine group.isMember_iff.2 ⟨group.g_lt_p, ?_⟩
  rw [← cast_powMod, q, group.g_order, Nat.cast_one]

theorem isMember_powMod {base : Nat} (hbase : group.isMember base = true) (exp : Nat) :
    group.isMember (powMod base exp group.p) = true := by
  refine group.isMember_iff.2 ⟨group.powMod_lt _ _, ?_⟩
  rw [cast_powMod, pow_right_comm, (group.isMember_iff.1 hbase).2, one_pow]

theorem isMember_mul {a b : Nat} (ha : group.isMember a = true) (hb : group.isMember b = true) :
    group.isMember (group.mul a b) = true := by
  refine group.isMember_iff.2 ⟨group.mul_lt _ _, ?_⟩
  rw [cast_mul, mul_pow, (group.isMember_iff.1 ha).2, (group.isMember_iff.1 hb).2, one_mul]

/-- Exponents of an element matter modulo `q` if its order divides `q`. -/
theorem pow_congr {element : ZMod group.p} (horder : element ^ group.q = 1) {a b : Nat}
    (hexp : (a : ZMod group.q) = b) : element ^ a = element ^ b := by
  rw [pow_eq_pow_mod a horder, pow_eq_pow_mod b horder,
    (ZMod.natCast_eq_natCast_iff a b group.q).1 hexp]

/-- So do those of the generator. -/
theorem powG_congr {a b : Nat} (hexp : (a : ZMod group.q) = b) : group.powG a = group.powG b := by
  apply group.eq_of_cast_eq (group.powG_lt _) (group.powG_lt _)
  rw [cast_powG, cast_powG, group.pow_congr (group.isMember_iff.1 group.isMember_g).2 hexp]

/-- A product of powers of one element has the sum of the exponents. -/
theorem pow_mul_pow_eq {element : ZMod group.p} (horder : element ^ group.q = 1) {a b sum : Nat}
    (hexp : (a : ZMod group.q) + b = sum) : element ^ a * element ^ b = element ^ sum := by
  rw [← pow_add]
  exact group.pow_congr horder (by rw [Nat.cast_add, hexp])

theorem ne_zero_of_isMember {value : Nat} (hmember : group.isMember value = true) : value ≠ 0 := by
  rintro rfl
  have := Fact.mk group.one_lt_p
  have horder := (group.isMember_iff.1 hmember).2
  rw [Nat.cast_zero, zero_pow group.q_pos.ne'] at horder
  exact zero_ne_one horder

theorem invert_eq_ok {member : Nat} (hmember : group.isMember member = true) :
    group.invert member = .ok (powMod member (group.p - 2) group.p) := by
  rw [invert, require_of _ ⟨group.ne_zero_of_isMember hmember, group.lt_p_of_isMember hmember⟩]
  rfl

theorem div_eq_ok {member : Nat} (hmember : group.isMember member = true) (value : Nat) :
    group.div value member = .ok (group.mul value (powMod member (group.p - 2) group.p)) := by
  rw [div, group.invert_eq_ok hmember]
  rfl

/-- A member has an inverse: its order divides `p - 1`. -/
theorem mul_pow_p_sub_two {member : Nat} (hmember : group.isMember member = true) :
    (member : ZMod group.p) * (member : ZMod group.p) ^ (group.p - 2) = 1 := by
  have hexp : group.p - 2 + 1 = group.q * 2 := by
    have := group.p_eq
    have := group.q_pos
    omega
  rw [← pow_succ', hexp, pow_mul, (group.isMember_iff.1 hmember).2, one_pow]

/-- A member divides out of a product. -/
theorem div_mul {member value : Nat} (hmember : group.isMember member = true)
    (hvalue : value < group.p) : group.div (group.mul member value) member = .ok value := by
  rw [group.div_eq_ok hmember]
  refine congrArg Except.ok (group.eq_of_cast_eq (group.mul_lt _ _) hvalue ?_)
  rw [cast_mul, cast_mul, cast_powMod, mul_right_comm, group.mul_pow_p_sub_two hmember, one_mul]

theorem product_lt (values : List Nat) : group.product values < group.p := by
  rw [product_eq]
  exact Nat.mod_lt _ group.p_pos

theorem cast_product (values : List Nat) :
    (group.product values : ZMod group.p) = (values.map (Nat.cast : Nat → ZMod group.p)).prod := by
  rw [product_eq, ZMod.natCast_mod, Nat.cast_list_prod]

theorem isMember_product {values : List Nat}
    (hmembers : ∀ value ∈ values, group.isMember value = true) :
    group.isMember (group.product values) = true := by
  refine group.isMember_iff.2 ⟨group.product_lt values, ?_⟩
  rw [cast_product]
  induction values with
  | nil => rw [List.map_nil, List.prod_nil, one_pow]
  | cons head tail ih =>
    obtain ⟨hhead, htail⟩ := List.forall_mem_cons.1 hmembers
    rw [List.map_cons, List.prod_cons, mul_pow, (group.isMember_iff.1 hhead).2, ih htail, one_mul]

end Group

end SecretBallot
