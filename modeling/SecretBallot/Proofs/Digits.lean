import Mathlib
import SecretBallot.Bytes

namespace SecretBallot

namespace Bytes

theorem toNatLE_ofNatLE (width n : Nat) : toNatLE (ofNatLE width n) = n % 256 ^ width := by
  induction width generalizing n with
  | zero => simp [ofNatLE, toNatLE, Nat.mod_one]
  | succ width ih =>
    have hrest : toNatLE (ofNatLE (width + 1) n)
        = toNatLE (ofNatLE width (n / 256)) * 256 + n % 256 := by
      simp [ofNatLE, toNatLE, UInt8.toNat_ofNat']
    rw [hrest, ih, Nat.pow_succ', Nat.mod_mul, Nat.mul_comm]
    exact Nat.add_comm _ _

theorem toNatBE_ofNatBE (width n : Nat) : toNatBE (ofNatBE width n) = n % 256 ^ width := by
  rw [toNatBE_eq_toNatLE_reverse, ofNatBE, List.reverse_reverse, toNatLE_ofNatLE]

theorem toNatLE_lt (bytes : Bytes) : toNatLE bytes < 256 ^ bytes.length := by
  induction bytes with
  | nil => exact Nat.one_pos
  | cons byte rest ih =>
    have hbyte : byte.toNat < 256 := byte.toNat_lt
    change toNatLE rest * 256 + byte.toNat < 256 ^ (rest.length + 1)
    rw [Nat.pow_succ]
    omega

theorem toNatBE_lt (bytes : Bytes) : toNatBE bytes < 256 ^ bytes.length := by
  rw [toNatBE_eq_toNatLE_reverse, ← List.length_reverse]
  exact toNatLE_lt _

theorem ofNatLE_toNatLE (bytes : Bytes) : ofNatLE bytes.length (toNatLE bytes) = bytes := by
  induction bytes with
  | nil => rfl
  | cons byte rest ih =>
    have hbyte : byte.toNat < 256 := byte.toNat_lt
    have hdigit : UInt8.ofNat (toNatLE rest * 256 + byte.toNat) = byte := by
      rw [← UInt8.toNat_inj, UInt8.toNat_ofNat', Nat.mul_add_mod_self_right]
      exact Nat.mod_eq_of_lt hbyte
    have hothers : (toNatLE rest * 256 + byte.toNat) / 256 = toNatLE rest := by omega
    change UInt8.ofNat (toNatLE rest * 256 + byte.toNat) ::
      ofNatLE rest.length ((toNatLE rest * 256 + byte.toNat) / 256) = byte :: rest
    rw [hdigit, hothers, ih]

theorem ofNatBE_toNatBE (bytes : Bytes) : ofNatBE bytes.length (toNatBE bytes) = bytes := by
  rw [ofNatBE, toNatBE_eq_toNatLE_reverse, ← List.length_reverse, ofNatLE_toNatLE,
    List.reverse_reverse]

theorem toNatBE_cons (first : UInt8) (rest : Bytes) :
    toNatBE (first :: rest) = 256 ^ rest.length * first.toNat + toNatBE rest := by
  have hfold (start : Nat) : rest.foldl (fun n byte => n * 256 + byte.toNat) start =
      256 ^ rest.length * start + toNatBE rest := by
    induction rest generalizing start with
    | nil => simp [toNatBE]
    | cons byte rest ih =>
      have hbyte := ih byte.toNat
      rw [toNatBE, List.foldl_cons, List.foldl_cons, Nat.zero_mul, Nat.zero_add, ih, hbyte,
        List.length_cons, Nat.pow_succ]
      ring
  rw [toNatBE, List.foldl_cons, Nat.zero_mul, Nat.zero_add, hfold]

/-- The shortest form loses no digit. -/
theorem lt_pow_byteLength (n : Nat) : n < 256 ^ (n.log2 / 8 + 1) := by
  have hbits : n < 2 ^ (n.log2 + 1) := Nat.lt_log2_self
  have hwider : n.log2 + 1 ≤ 8 * (n.log2 / 8 + 1) := by omega
  calc n < 2 ^ (n.log2 + 1) := hbits
    _ ≤ 2 ^ (8 * (n.log2 / 8 + 1)) := Nat.pow_le_pow_right (by decide) hwider
    _ = 256 ^ (n.log2 / 8 + 1) := by rw [Nat.pow_mul]

@[simp] theorem toNatBE_ofNat (n : Nat) : toNatBE (ofNat n) = n := by
  rw [ofNat, toNatBE_ofNatBE, Nat.mod_eq_of_lt (lt_pow_byteLength n)]

@[simp] theorem toNatBE_ofUInt64 (n : UInt64) : toNatBE (ofUInt64 n) = n.toNat := by
  rw [ofUInt64, toNatBE_ofNatBE]
  exact Nat.mod_eq_of_lt n.toNat_lt

/-- So many leading bits of the first byte cleared. -/
def clearLeading (count : Nat) : Bytes → Bytes
  | [] => []
  | first :: rest => (first &&& (0xff >>> UInt8.ofNat count)) :: rest

/-- Clearing leading bits leaves the lower ones. -/
theorem toNat_clear (first : UInt8) {count : Nat} (hcount : count < 8) :
    (first &&& (0xff >>> UInt8.ofNat count)).toNat = first.toNat % 2 ^ (8 - count) := by
  have hmask : ∀ count < 8, ((0xff : UInt8) >>> UInt8.ofNat count).toNat = 2 ^ (8 - count) - 1 := by
    decide
  rw [UInt8.toNat_and, hmask count hcount, Nat.and_two_pow_sub_one_eq_mod]

/-- Reducing by a power of two above the lower bits leaves these and reduces the bits above. -/
theorem two_pow_mul_add_mod {lower low : Nat} (hlower : lower < 2 ^ low) (upper high : Nat) :
    (2 ^ low * upper + lower) % 2 ^ (low + high) = 2 ^ low * (upper % 2 ^ high) + lower := by
  have hupper : (2 ^ low * upper + lower) / 2 ^ low = upper := by
    rw [Nat.mul_add_div (Nat.two_pow_pos low), Nat.div_eq_of_lt hlower, Nat.add_zero]
  rw [Nat.pow_add, Nat.mod_mul, hupper, Nat.mul_add_mod, Nat.mod_eq_of_lt hlower, Nat.add_comm]

theorem toNatBE_clearLeading {count : Nat} (hcount : count < 8) (buffer : Bytes) :
    toNatBE (clearLeading count buffer) = toNatBE buffer % 2 ^ (8 * buffer.length - count) := by
  cases buffer with
  | nil => rfl
  | cons first rest =>
    have hwidth : (256 : Nat) ^ rest.length = 2 ^ (8 * rest.length) := by
      rw [Nat.pow_mul]
    have hrest : toNatBE rest < 2 ^ (8 * rest.length) := hwidth ▸ toNatBE_lt rest
    have hbits : 8 * (first :: rest).length - count = 8 * rest.length + (8 - count) := by
      rw [List.length_cons]
      omega
    rw [clearLeading, toNatBE_cons, toNatBE_cons, toNat_clear first hcount, hwidth, hbits,
      two_pow_mul_add_mod hrest]

end Bytes

end SecretBallot
