import Mathlib
import SecretBallot.Proofs.Group.Exponents

namespace SecretBallot

namespace Group

variable {group : Group}

/-- An operation on elements returns a member of the subgroup. -/
def YieldsMember (group : Group) (outcome : Outcome Nat) : Prop :=
  ∃ value, outcome = .ok value ∧ group.isMember value = true

/-- The members are the powers of the generator, each to one reduced exponent. -/
theorem isMember_iff_existsUnique (hsafe : group.IsSafe) {value : Nat} :
    group.isMember value = true ↔ ∃! exp, exp < group.q ∧ group.powG exp = value := by
  constructor
  · intro hmember
    obtain ⟨exp, hlt, rfl⟩ := exists_powG_eq hsafe hmember
    refine ⟨exp, ⟨hlt, rfl⟩, ?_⟩
    rintro other ⟨hother, heq⟩
    exact (powG_eq_powG_iff_of_lt hsafe hother hlt).1 heq
  · rintro ⟨exp, ⟨_, rfl⟩, _⟩
    exact isMember_powG hsafe exp

/-- The members are the residues whose exponents may be reduced. -/
theorem isMember_iff_pow_congr {value : Nat} (hvalue : value < group.p) :
    group.isMember value = true ↔
      ∀ a b, a ≡ b [MOD group.q] → group.pow value a = group.pow value b := by
  constructor
  · intro hmember a b hexp
    have hpower : powMod value a group.p = powMod value b group.p := by
      refine group.eq_of_cast_eq (group.powMod_lt _ _) (group.powMod_lt _ _) ?_
      rw [cast_powMod, cast_powMod]
      exact group.pow_congr (group.isMember_iff.1 hmember).2
        ((ZMod.natCast_eq_natCast_iff a b group.q).2 hexp)
    rw [group.pow_eq_ok hvalue, group.pow_eq_ok hvalue, hpower]
  · intro hcongr
    have hpower := hcongr group.q 0 (Nat.mod_self group.q)
    rw [group.pow_eq_ok hvalue, group.pow_eq_ok hvalue] at hpower
    have hcast := congrArg (Nat.cast : Nat → ZMod group.p) (Except.ok.inj hpower)
    rw [cast_powMod, cast_powMod, pow_zero] at hcast
    exact group.isMember_iff.2 ⟨hvalue, hcast⟩

section Member

variable {u v : Nat} (hu : group.isMember u = true) (hv : group.isMember v = true)

include hu

theorem pow_member (exp : Nat) : group.pow u exp = .ok (powMod u exp group.p) :=
  group.pow_eq_ok (group.lt_p_of_isMember hu) exp

theorem yieldsMember_pow (exp : Nat) : group.YieldsMember (group.pow u exp) :=
  ⟨_, pow_member hu exp, group.isMember_powMod hu exp⟩

theorem yieldsMember_invert : group.YieldsMember (group.invert u) :=
  ⟨_, group.invert_eq_ok hu, group.isMember_powMod hu _⟩

/-- A power times the negative power is one. -/
theorem mul_pow_powNeg (exp : Nat) :
    (do
      let power ← group.pow u exp
      let inverse ← group.powNeg u exp
      pure (group.mul power inverse)) = (.ok 1 : Outcome Nat) := by
  have hcancel : (exp : ZMod group.q) + group.negQ exp = (0 : Nat) := by
    rw [cast_negQ, add_neg_cancel, Nat.cast_zero]
  rw [powNeg, pow_member hu, pow_member hu]
  refine congrArg Except.ok (group.eq_of_cast_eq (group.mul_lt _ _) group.one_lt_p ?_)
  rw [cast_mul, cast_powMod, cast_powMod,
    group.pow_mul_pow_eq (group.isMember_iff.1 hu).2 hcancel, pow_zero, Nat.cast_one]

/-- The power to a sum is the product of the powers. -/
theorem pow_add_eq (a b : Nat) : group.pow u (a + b) =
    (do
      let first ← group.pow u a
      let second ← group.pow u b
      pure (group.mul first second)) := by
  rw [pow_member hu, pow_member hu, pow_member hu]
  refine congrArg Except.ok (group.eq_of_cast_eq (group.powMod_lt _ _) (group.mul_lt _ _) ?_)
  rw [cast_mul, cast_powMod, cast_powMod, cast_powMod, pow_add]

/-- The power to a product, also if that is reduced, is the power of the power. -/
theorem pow_mulQ_eq (a b : Nat) : group.pow u (group.mulQ a b) =
    (do
      let power ← group.pow u a
      group.pow power b) := by
  have hproduct : ((group.mulQ a b : Nat) : ZMod group.q) = (a * b : Nat) := by
    rw [cast_mulQ, Nat.cast_mul]
  rw [pow_member hu, pow_member hu, ok_bind, group.pow_eq_ok (group.powMod_lt _ _)]
  refine congrArg Except.ok (group.eq_of_cast_eq (group.powMod_lt _ _) (group.powMod_lt _ _) ?_)
  rw [cast_powMod, cast_powMod, cast_powMod, ← pow_mul,
    group.pow_congr (group.isMember_iff.1 hu).2 hproduct]

include hv

theorem yieldsMember_div : group.YieldsMember (group.div u v) :=
  ⟨_, group.div_eq_ok hv u, group.isMember_mul hu (group.isMember_powMod hv _)⟩

/-- Dividing by a member and multiplying by it changes nothing. -/
theorem mul_div_cancel :
    (do
      let quotient ← group.div u v
      pure (group.mul quotient v)) = (.ok u : Outcome Nat) := by
  rw [group.div_eq_ok hv]
  refine congrArg Except.ok
    (group.eq_of_cast_eq (group.mul_lt _ _) (group.lt_p_of_isMember hu) ?_)
  rw [cast_mul, cast_mul, cast_powMod, mul_assoc, mul_comm (_ ^ _), group.mul_pow_p_sub_two hv,
    mul_one]

end Member

/-- In a group whose modulus is a safe prime, a value is a member if and only if it is the power of
    the generator to exactly one reduced exponent, and two powers of the generator are equal if and
    only if their exponents are congruent. A residue is a member if and only if congruent exponents
    give it the same powers. Products, inverses, quotients and powers of members are members, and
    they obey the laws of powers. -/
theorem subgroup_laws (hsafe : group.IsSafe) :
    (∀ value, group.isMember value = true ↔ ∃! exp, exp < group.q ∧ group.powG exp = value) ∧
    (∀ a b, group.powG a = group.powG b ↔ a ≡ b [MOD group.q]) ∧
    (∀ value < group.p, group.isMember value = true ↔
      ∀ a b, a ≡ b [MOD group.q] → group.pow value a = group.pow value b) ∧
    ∀ u v, group.isMember u = true → group.isMember v = true →
      group.isMember (group.mul u v) = true ∧
      group.YieldsMember (group.invert u) ∧
      group.YieldsMember (group.div u v) ∧
      (do
        let quotient ← group.div u v
        pure (group.mul quotient v)) = (.ok u : Outcome Nat) ∧
      ∀ a b,
        group.YieldsMember (group.pow u a) ∧
        group.YieldsMember (group.powNeg u a) ∧
        (do
          let power ← group.pow u a
          let inverse ← group.powNeg u a
          pure (group.mul power inverse)) = (.ok 1 : Outcome Nat) ∧
        group.pow u (a + b) = (do
          let first ← group.pow u a
          let second ← group.pow u b
          pure (group.mul first second)) ∧
        group.pow u (group.mulQ a b) = (do
          let power ← group.pow u a
          group.pow power b) := by
  refine ⟨fun value => isMember_iff_existsUnique hsafe, fun a b => ?_,
    fun value hvalue => isMember_iff_pow_congr hvalue, fun u v hu hv => ?_⟩
  · rw [powG_eq_powG_iff hsafe, ZMod.natCast_eq_natCast_iff]
  · exact ⟨group.isMember_mul hu hv, yieldsMember_invert hu, yieldsMember_div hu hv,
      mul_div_cancel hu hv, fun a b => ⟨yieldsMember_pow hu a, yieldsMember_pow hu _,
        mul_pow_powNeg hu a, pow_add_eq hu a b, pow_mulQ_eq hu a b⟩⟩

/-- Modulo 23 the members are the powers of 4. Among them are 2 and 3, and 5 is not. -/
theorem subgroup_laws_small :
    small.IsSafe ∧ small.isMember 2 = true ∧ small.isMember 3 = true ∧
      (∃! exp, exp < small.q ∧ small.powG exp = 3) ∧
      small.powG 3 = small.powG 14 ∧
      ¬ (∀ a b, a ≡ b [MOD small.q] → small.pow 5 a = small.pow 5 b) ∧
      (do
        let quotient ← small.div 2 3
        pure (small.mul quotient 3)) = (.ok 2 : Outcome Nat) ∧
      (do
        let power ← small.pow 2 13
        let inverse ← small.powNeg 2 13
        pure (small.mul power inverse)) = (.ok 1 : Outcome Nat) ∧
      small.pow 2 (small.mulQ 9 17) = (do
        let power ← small.pow 2 9
        small.pow power 17) := by
  have htwo : small.isMember 2 = true := by decide
  have hthree : small.isMember 3 = true := by decide
  obtain ⟨hmembers, hexponents, hreduced, hlaws⟩ := subgroup_laws small_isSafe
  obtain ⟨_, _, _, hdiv, hpowers⟩ := hlaws 2 3 htwo hthree
  obtain ⟨_, _, hinverse, _⟩ := hpowers 13 0
  obtain ⟨_, _, _, _, hproduct⟩ := hpowers 9 17
  have hfive : ¬ small.isMember 5 = true := by decide
  exact ⟨small_isSafe, htwo, hthree, (hmembers 3).1 hthree, (hexponents 3 14).2 (by decide),
    fun hcongr => hfive ((hreduced 5 (by decide)).2 hcongr), hdiv, hinverse, hproduct⟩

end Group

end SecretBallot
