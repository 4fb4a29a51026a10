import Mathlib
import SecretBallot.Group.Power

namespace SecretBallot

theorem powerStep_eq (m : Nat) {digits base exp acc : Nat} (hexp : exp < 2 ^ digits)
    (hacc : acc % m = acc) : powerStep m digits base exp acc = acc * base ^ exp % m := by
  induction digits generalizing base exp acc with
  | zero =>
    obtain rfl : exp = 0 := by omega
    simp [powerStep, hacc]
  | succ digits ih =>
    have hhalf : exp / 2 < 2 ^ digits := by
      rw [Nat.pow_succ] at hexp
      omega
    have hsquare : (base * base % m) ^ (exp / 2) % m = base ^ (2 * (exp / 2)) % m := by
      rw [← Nat.pow_mod, ← Nat.pow_two, ← Nat.pow_mul]
    rw [powerStep]
    by_cases hodd : exp % 2 = 1
    · have hpower : base ^ exp = base * base ^ (2 * (exp / 2)) := by
        rw [← Nat.pow_succ', Nat.succ_eq_add_one, show 2 * (exp / 2) + 1 = exp by omega]
      rw [if_pos hodd, ih hhalf (Nat.mod_mod _ _), Nat.mul_mod, hsquare, Nat.mod_mod,
        ← Nat.mul_mod, Nat.mul_assoc, hpower]
    · have heven : 2 * (exp / 2) = exp := by omega
      rw [if_neg hodd, ih hhalf hacc, Nat.mul_mod, hsquare, ← Nat.mul_mod, heven]

theorem powMod_eq (base exp m : Nat) : powMod base exp m = base ^ exp % m := by
  rw [powMod, powerStep_eq m Nat.lt_log2_self (Nat.mod_mod _ _), Nat.mul_mod, Nat.mod_mod,
    ← Nat.pow_mod, ← Nat.mul_mod, Nat.one_mul]

end SecretBallot
