import Mathlib
import SecretBallot.Proofs.Group.Subgroup

namespace SecretBallot

namespace Primality

theorem two_pow_mul_oddPart (fuel n : Nat) :
    2 ^ (oddPart fuel n).2 * (oddPart fuel n).1 = n := by
  induction fuel generalizing n with
  | zero => rw [oddPart, Nat.pow_zero, Nat.one_mul]
  | succ fuel ih =>
    rw [oddPart]
    split
    · next heven =>
      calc 2 ^ ((oddPart fuel (n / 2)).2 + 1) * (oddPart fuel (n / 2)).1
          = 2 * (2 ^ (oddPart fuel (n / 2)).2 * (oddPart fuel (n / 2)).1) := by
            rw [Nat.pow_succ']
            exact Nat.mul_assoc ..
        _ = n := by
          rw [ih]
          omega
    · rw [Nat.pow_zero, Nat.one_mul]

theorem prime_of_mem_bases : ∀ base ∈ bases, base.Prime := by
  norm_num [bases]

section Prime

variable {n : Nat} (hprime : n.Prime)

include hprime

/-- As one has no square roots but itself and its negative, repeated squaring that starts elsewhere
    and ends at one comes past the negative. -/
theorem meetsMinusOne_of_pow_eq_one {times x : Nat} (hlt : x < n) (hne : x ≠ 1)
    (hpow : (x : ZMod n) ^ 2 ^ times = 1) : meetsMinusOne n times x = true := by
  have := Fact.mk hprime
  have hcast {a b : Nat} (ha : a < n) (hb : b < n) (heq : (a : ZMod n) = b) : a = b :=
    ((ZMod.natCast_eq_natCast_iff a b n).1 heq).eq_of_lt_of_lt ha hb
  induction times generalizing x with
  | zero =>
    rw [pow_zero, pow_one, ← Nat.cast_one] at hpow
    exact absurd (hcast hlt hprime.one_lt hpow) hne
  | succ times ih =>
    rw [meetsMinusOne, Bool.or_eq_true, beq_iff_eq]
    refine or_iff_not_imp_left.2 fun hminus => ?_
    have hsquare : ((x * x % n : Nat) : ZMod n) = x * x := by
      rw [ZMod.natCast_mod, Nat.cast_mul]
    refine ih (Nat.mod_lt _ hprime.pos) (fun hone => ?_) ?_
    · rw [hone, Nat.cast_one, eq_comm, mul_self_eq_one_iff] at hsquare
      rcases hsquare with hroot | hroot
      · exact hne (hcast hlt hprime.one_lt (hroot.trans Nat.cast_one.symm))
      · refine hminus (hcast hlt (Nat.sub_one_lt hprime.ne_zero) (hroot.trans ?_))
        rw [Nat.cast_pred hprime.pos, ZMod.natCast_self, zero_sub]
    · rw [hsquare, ← pow_two, ← pow_mul, ← pow_succ']
      exact hpow

/-- The repeated squares of a round end at the power that is one by Fermat's theorem. -/
theorem passesRound_of_not_dvd {odd twos base : Nat} (hsplit : 2 ^ twos * odd = n - 1)
    (hbase : ¬ n ∣ base) : passesRound n odd twos base = true := by
  have := Fact.mk hprime
  rw [passesRound, powMod_eq, Bool.or_eq_true, beq_iff_eq]
  refine or_iff_not_imp_left.2 fun hne => ?_
  refine meetsMinusOne_of_pow_eq_one hprime (Nat.mod_lt _ hprime.pos) hne ?_
  rw [ZMod.natCast_mod, Nat.cast_pow, ← pow_mul, Nat.mul_comm, hsplit]
  apply ZMod.pow_card_sub_one_eq_one
  rwa [Ne, ZMod.natCast_eq_zero_iff]

/-- No prime fails the test. -/
theorem isProbablePrime_of_prime : isProbablePrime n = true := by
  rw [isProbablePrime, if_neg (Nat.not_lt.2 hprime.two_le)]
  split
  · rfl
  next hnew =>
    have hne : ∀ base ∈ bases, base ≠ n := by
      rintro base hbase rfl
      exact hnew (List.contains_iff_mem.2 hbase)
    have hdivides : (bases.any fun base => n % base == 0) = false := by
      rw [List.any_eq_false]
      intro base hbase hdvd
      rw [beq_iff_eq] at hdvd
      have heq := (Nat.prime_dvd_prime_iff_eq (prime_of_mem_bases base hbase) hprime).1
        (Nat.dvd_of_mod_eq_zero hdvd)
      exact hne base hbase heq
    rw [if_neg (by rw [hdivides]; exact Bool.false_ne_true), List.all_eq_true]
    intro base hbase
    refine passesRound_of_not_dvd hprime (two_pow_mul_oddPart ..) fun hdvd => hne base hbase ?_
    exact ((Nat.prime_dvd_prime_iff_eq hprime (prime_of_mem_bases base hbase)).1 hdvd).symm

end Prime

theorem isSafePrime_of_prime {p : Nat} (hp : p.Prime) (hq : ((p - 1) / 2).Prime) :
    isSafePrime p = true := by
  rw [isSafePrime, isProbablePrime_of_prime hp, isProbablePrime_of_prime hq]
  rfl

end Primality

/-- No group is lost to the test: every safe prime is accepted with every generator of its
    subgroup. -/
theorem Group.exists_new {p g : Nat} (hp : p.Prime) (hq : ((p - 1) / 2).Prime)
    (hrange : 1 < g ∧ g < p) (horder : g ^ ((p - 1) / 2) % p = 1) :
    ∃ group, Group.new p g = .ok group ∧ group.p = p ∧ group.g = g ∧ group.IsSafe := by
  have hfive : 5 ≤ p := by
    have htwo := hq.two_le
    omega
  have hodd : p % 2 = 1 := hp.eq_two_or_odd.resolve_left (by omega)
  have hsafe := Primality.isSafePrime_of_prime hp hq
  have hpower : powMod g ((p - 1) / 2) p = 1 := (powMod_eq ..).trans horder
  refine ⟨⟨p, g, hfive, hodd, hsafe, hrange.1, hrange.2, hpower⟩, ?_, rfl, rfl, hp, hq⟩
  rw [Group.new, dif_pos ⟨hfive, hodd⟩, dif_pos hsafe, dif_pos hrange, dif_pos hpower]

end SecretBallot
