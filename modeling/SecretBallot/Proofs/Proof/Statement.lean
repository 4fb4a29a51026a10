import Mathlib
import SecretBallot.Proof.Statement
import SecretBallot.Proofs.Completion
import SecretBallot.Proofs.Group.Exponents

namespace SecretBallot

theorem PublicKey.isMember_h (key : PublicKey) : key.group.isMember key.h = true := by
  have hgenerates := key.h_generates
  rw [Group.isGenerator, Bool.and_eq_true] at hgenerates
  exact hgenerates.1

theorem Group.isGenerator_two_small : small.isGenerator 2 = true := by
  decide

theorem Group.isGenerator_three_small : small.isGenerator 3 = true := by
  decide

/-- A key of the group of order 11. -/
def PublicKey.small : PublicKey :=
  ⟨Group.small, 2, 3, Group.isGenerator_two_small, Group.isGenerator_three_small⟩

/-- The subgroup of order two of the residues modulo five. -/
def Group.smallest : Group :=
  ⟨5, 4, by decide, by decide, by decide, small.one_lt_g, by decide, by decide⟩

theorem Group.isGenerator_four_smallest : smallest.isGenerator 4 = true := by
  decide

/-- The only key of the smallest group. -/
def PublicKey.smallest : PublicKey :=
  ⟨Group.smallest, 4, 4, Group.isGenerator_four_smallest, Group.isGenerator_four_smallest⟩

namespace Ciphertext

variable {key : PublicKey}

theorem encrypt_eq (key : PublicKey) (m r : Nat) : encrypt key m r =
    .ok ⟨key.group.powG r, key.group.mul (powMod key.h r key.group.p) (key.group.powG m)⟩ := by
  rw [encrypt, key.group.pow_eq_ok (key.group.lt_p_of_isMember key.isMember_h)]
  rfl

/-- What a key encrypts is well-formed. -/
theorem isWellFormed_of_encrypt {m r : Nat} {ciphertext : Ciphertext}
    (hencrypt : encrypt key m r = .ok ciphertext) :
    ciphertext.isWellFormed key.group = true := by
  rw [encrypt_eq, Except.ok.injEq] at hencrypt
  subst hencrypt
  have hpower (exp : Nat) : key.group.isMember (key.group.powG exp) = true :=
    key.group.isMember_powMod key.group.isMember_g exp
  rw [isWellFormed, Bool.and_eq_true]
  exact ⟨hpower r,
    key.group.isMember_mul (key.group.isMember_powMod key.isMember_h r) (hpower m)⟩

theorem pad_lt_of_isWellFormed {group : Group} {ciphertext : Ciphertext}
    (hformed : ciphertext.isWellFormed group = true) : ciphertext.pad < group.p := by
  rw [isWellFormed, Bool.and_eq_true] at hformed
  exact group.lt_p_of_isMember hformed.1

/-- The commitments of a challenge `c` and a response `s`, as numbers. -/
def commitmentPair (ciphertext : Ciphertext) (key : PublicKey) (d : UInt64) (c s : Nat) :
    Nat × Nat :=
  let shifted := key.group.mul ciphertext.data (key.group.powG (key.group.negQ d.toNat))
  (key.group.mul (key.group.powG s) (powMod ciphertext.pad (key.group.negQ c) key.group.p),
    key.group.mul (powMod key.h s key.group.p) (powMod shifted (key.group.negQ c) key.group.p))

theorem commitments_eq {ciphertext : Ciphertext} (hpad : ciphertext.pad < key.group.p)
    (d : UInt64) (c s : Nat) :
    ciphertext.commitments key d c s = .ok (ciphertext.commitmentPair key d c s) := by
  have hshifted : ciphertext.shifted key.group d =
      .ok (key.group.mul ciphertext.data (key.group.powG (key.group.negQ d.toNat))) := by
    rw [shifted, Group.powNeg, key.group.pow_eq_ok key.group.g_lt_p]
    rfl
  have hh : key.h < key.group.p := key.group.lt_p_of_isMember key.isMember_h
  rw [commitments, hshifted, Group.powNeg, key.group.pow_eq_ok hpad]
  change (key.group.pow key.h s >>= fun keyPower => key.group.powNeg _ c >>= _) = _
  rw [key.group.pow_eq_ok hh, Group.powNeg, key.group.pow_eq_ok (key.group.mul_lt _ _)]
  rfl

/-- A response that answers a challenge leads back to the commitments of the prover. -/
theorem commitmentPair_of_encrypt {d : UInt64} {r : Nat} {ciphertext : Ciphertext}
    (hencrypt : encrypt key d.toNat r = .ok ciphertext) {w c s : Nat}
    (hresponse : (s : ZMod key.group.q) = w + c * r) :
    ciphertext.commitmentPair key d c s = (key.group.powG w, powMod key.h w key.group.p) := by
  let group := key.group
  have hg : (group.g : ZMod group.p) ^ group.q = 1 := (group.isMember_iff.1 group.isMember_g).2
  have hh : (key.h : ZMod group.p) ^ group.q = 1 := (group.isMember_iff.1 key.isMember_h).2
  have hanswer : ((s : ZMod group.q) + (r * group.negQ c : Nat)) = (w : ZMod group.q) := by
    rw [hresponse, Nat.cast_mul, Group.cast_negQ]
    ring
  have hcancel : (d.toNat : ZMod group.q) + group.negQ d.toNat = (0 : Nat) := by
    rw [Group.cast_negQ, add_neg_cancel, Nat.cast_zero]
  have hunshift :
      (group.g : ZMod group.p) ^ d.toNat * (group.g : ZMod group.p) ^ group.negQ d.toNat = 1 := by
    rw [group.pow_mul_pow_eq hg hcancel, pow_zero]
  rw [encrypt_eq, Except.ok.injEq] at hencrypt
  subst hencrypt
  rw [commitmentPair, Prod.mk.injEq]
  constructor
  · refine group.eq_of_cast_eq (group.mul_lt _ _) (group.powG_lt _) ?_
    rw [Group.cast_mul, Group.cast_powG, Group.cast_powMod, Group.cast_powG, Group.cast_powG,
      ← pow_mul]
    exact group.pow_mul_pow_eq hg hanswer
  · refine group.eq_of_cast_eq (group.mul_lt _ _) (group.powMod_lt _ _) ?_
    rw [Group.cast_mul, Group.cast_powMod, Group.cast_powMod, Group.cast_mul, Group.cast_mul,
      Group.cast_powMod, Group.cast_powG, Group.cast_powG, Group.cast_powMod, mul_assoc, hunshift,
      mul_one, ← pow_mul]
    exact group.pow_mul_pow_eq hh hanswer

end Ciphertext

end SecretBallot
