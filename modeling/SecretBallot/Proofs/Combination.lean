import Mathlib
import SecretBallot.Proofs.Ballot.Reseal

namespace SecretBallot

/-- A way to combine encryptions. -/
inductive Combination where
  | encryption (m : UInt64) (r : Nat)
  | identity
  | product (left right : Combination)
  | productAll (parts : List Combination)
  | reRandomized (part : Combination) (shift : Nat)

namespace Combination

mutual

/-- The plaintexts that are encrypted, each with its randomness and as often as it occurs. -/
def leaves : Combination → Multiset (UInt64 × Nat)
  | .encryption m r => {(m, r)}
  | .identity => 0
  | .product left right => left.leaves + right.leaves
  | .productAll parts => leavesOfAll parts
  | .reRandomized part _ => part.leaves

def leavesOfAll : List Combination → Multiset (UInt64 × Nat)
  | [] => 0
  | part :: parts => part.leaves + leavesOfAll parts

end

mutual

/-- By how much the randomness is shifted in all. -/
def shift : Combination → Nat
  | .encryption _ _ => 0
  | .identity => 0
  | .product left right => left.shift + right.shift
  | .productAll parts => shiftOfAll parts
  | .reRandomized part shift => part.shift + shift

def shiftOfAll : List Combination → Nat
  | [] => 0
  | part :: parts => part.shift + shiftOfAll parts

end

mutual

/-- The ciphertext that comes out under a key. -/
def evaluate (key : PublicKey) : Combination → Outcome Ciphertext
  | .encryption m r => Ciphertext.encrypt key m.toNat r
  | .identity => pure .identity
  | .product left right => do
    let a ← left.evaluate key
    let b ← right.evaluate key
    pure (Ciphertext.combine key.group a b)
  | .productAll parts => do
    let ciphertexts ← evaluateAll key parts
    pure (Ciphertext.combineAll key.group ciphertexts)
  | .reRandomized part shift => do
    let ciphertext ← part.evaluate key
    ciphertext.reRandomize key shift

def evaluateAll (key : PublicKey) : List Combination → Outcome (List Ciphertext)
  | [] => pure []
  | part :: parts => do
    let first ← part.evaluate key
    let rest ← evaluateAll key parts
    pure (first :: rest)

end

/-- The sum of the plaintexts. -/
def total (leaves : Multiset (UInt64 × Nat)) : Nat :=
  (leaves.map fun leaf => leaf.1.toNat).sum

/-- The sum of the randomness. -/
def randomness (leaves : Multiset (UInt64 × Nat)) : Nat :=
  (leaves.map fun leaf => leaf.2).sum

theorem total_add (a b : Multiset (UInt64 × Nat)) : total (a + b) = total a + total b := by
  rw [total, Multiset.map_add, Multiset.sum_add, total, total]

theorem randomness_add (a b : Multiset (UInt64 × Nat)) :
    randomness (a + b) = randomness a + randomness b := by
  rw [randomness, Multiset.map_add, Multiset.sum_add, randomness, randomness]

section Evaluate

variable (key : PublicKey)

mutual

/-- A combination is the encryption of the sums, whatever its shape. -/
theorem evaluate_eq : ∀ combination : Combination, combination.evaluate key =
    Ciphertext.encrypt key (total combination.leaves)
      (randomness combination.leaves + combination.shift)
  | .encryption m r => by
    simp [evaluate, leaves, shift, total, randomness]
  | .identity => by
    simp [evaluate, leaves, shift, total, randomness, Ciphertext.encrypt_zero, pure, Except.pure]
  | .product left right => by
    obtain ⟨a, ha⟩ := Ciphertext.exists_encrypt key (total left.leaves)
      (randomness left.leaves + left.shift)
    obtain ⟨b, hb⟩ := Ciphertext.exists_encrypt key (total right.leaves)
      (randomness right.leaves + right.shift)
    have hproduct := Ciphertext.encrypt_add ha hb
    rw [evaluate, evaluate_eq left, ha, evaluate_eq right, hb, leaves, shift, total_add,
      randomness_add, add_add_add_comm, hproduct, ok_bind]
    apply ok_bind
  | .productAll parts => by
    obtain ⟨openings, ciphertexts, hevaluate, hencrypts, htotal, hrandomness⟩ :=
      evaluateAll_eq parts
    rw [evaluate, hevaluate, leaves, shift, ← htotal, ← hrandomness,
      Ciphertext.encrypt_sum hencrypts]
    apply ok_bind
  | .reRandomized part shift => by
    obtain ⟨ciphertext, hencrypt⟩ := Ciphertext.exists_encrypt key (total part.leaves)
      (randomness part.leaves + part.shift)
    rw [evaluate, evaluate_eq part, hencrypt, leaves, Combination.shift, ← add_assoc,
      ← Ciphertext.reRandomize_eq_encrypt hencrypt]
    apply ok_bind

/-- The ciphertexts that are multiplied are encryptions, and together they have all the leaves. -/
theorem evaluateAll_eq : ∀ parts : List Combination, ∃ openings ciphertexts,
    evaluateAll key parts = .ok ciphertexts ∧
      Ciphertext.AreEncryptions key openings ciphertexts ∧
      (openings.map (·.1)).sum = total (leavesOfAll parts) ∧
      (openings.map (·.2)).sum = randomness (leavesOfAll parts) + shiftOfAll parts
  | [] => ⟨[], [], rfl, .nil, rfl, rfl⟩
  | part :: parts => by
    obtain ⟨openings, ciphertexts, hevaluate, hencrypts, htotal, hrandomness⟩ :=
      evaluateAll_eq parts
    obtain ⟨first, hfirst⟩ := Ciphertext.exists_encrypt key (total part.leaves)
      (randomness part.leaves + part.shift)
    refine ⟨(total part.leaves, randomness part.leaves + part.shift) :: openings,
      first :: ciphertexts, ?_, .cons hfirst hencrypts, ?_, ?_⟩
    · rw [evaluateAll, evaluate_eq part, hfirst, ok_bind, hevaluate]
      apply ok_bind
    · rw [List.map_cons, List.sum_cons, htotal, leavesOfAll, total_add]
    · rw [List.map_cons, List.sum_cons, hrandomness, leavesOfAll, shiftOfAll, randomness_add,
        add_add_add_comm]

end

end Evaluate

end Combination

section Decrypt

variable {key : DecryptionKey} {publicKey : PublicKey} (hsafe : key.group.IsSafe)
  (hfits : key.fits publicKey = true)

include hsafe hfits

/-- What is encrypted is found modulo `q`, if it is within the bound then. -/
theorem Ciphertext.decrypt_eq_of_encrypt {m r : Nat} {ciphertext : Ciphertext}
    (hencrypt : encrypt publicKey m r = .ok ciphertext) (bound : Nat) :
    ciphertext.decrypt key bound =
      if m % key.group.q ≤ bound then .ok (m % key.group.q)
      else .error (.refused (.searchExhausted bound)) := by
  have hlt : m % key.group.q < key.group.q := Nat.mod_lt m key.group.q_pos
  have hreduced : key.group.powG m = key.group.powG (m % key.group.q) := by
    rw [Group.powG_eq_powG_iff hsafe, ZMod.natCast_mod]
  rw [decrypt_of_encrypt hfits hencrypt, hreduced, search_powG hsafe hlt]
  split <;> rfl

/-- However encryptions are combined, decryption finds the sum of the plaintexts modulo `q`, or
    reports that the search is exhausted if the sum exceeds the bound. A ciphertext with a component
    outside the subgroup is malformed. -/
theorem Combination.decrypts_to_total :
    (∀ (openings : List (UInt64 × Nat)) (combination : Combination),
      combination.leaves = openings →
      ∃ ciphertext, combination.evaluate publicKey = .ok ciphertext ∧
        ∀ bound, ciphertext.decrypt key bound =
          if (openings.map fun opening => opening.1.toNat).sum % key.group.q ≤ bound
          then .ok ((openings.map fun opening => opening.1.toNat).sum % key.group.q)
          else .error (.refused (.searchExhausted bound))) ∧
    ∀ (ciphertext : Ciphertext) (bound : Nat),
      key.group.isMember ciphertext.pad = false ∨ key.group.isMember ciphertext.data = false →
        ciphertext.decrypt key bound = .error (.refused (.malformed .ciphertextOutside)) := by
  constructor
  · intro openings combination hleaves
    obtain ⟨ciphertext, hencrypt⟩ := Ciphertext.exists_encrypt publicKey (total combination.leaves)
      (randomness combination.leaves + combination.shift)
    have htotal : total combination.leaves =
        (openings.map fun opening => opening.1.toNat).sum := by
      rw [hleaves, total, Multiset.map_coe, Multiset.sum_coe]
    refine ⟨ciphertext, (combination.evaluate_eq publicKey).trans hencrypt, fun bound => ?_⟩
    rw [← htotal]
    exact Ciphertext.decrypt_eq_of_encrypt hsafe hfits hencrypt bound
  · intro ciphertext bound houtside
    have hmalformed : ¬ ciphertext.isWellFormed key.group = true := by
      rcases houtside with hpad | hdata
      · simp [Ciphertext.isWellFormed, hpad]
      · simp [Ciphertext.isWellFormed, hdata]
    rw [Ciphertext.decrypt, ensure, if_neg hmalformed]
    rfl

end Decrypt

/-- Seven and nine, multiplied with the identity between them and the nine re-randomized. In the
    subgroup of order eleven their sum is five, which the bound includes. -/
theorem Combination.decrypts_to_total_small :
    let key : DecryptionKey := ⟨.small, 4⟩
    let combination := productAll [product (encryption 7 12) identity,
      reRandomized (encryption 9 3) 20]
    key.group.IsSafe ∧ key.fits .small = true ∧
      (∃ ciphertext, combination.evaluate .small = .ok ciphertext ∧
        ciphertext.decrypt key 5 = .ok 5 ∧
        ciphertext.decrypt key 4 = .error (.refused (.searchExhausted 4))) ∧
      Ciphertext.decrypt key ⟨5, 1⟩ 5 = .error (.refused (.malformed .ciphertextOutside)) := by
  intro key combination
  have hsafe : key.group.IsSafe := Group.small_isSafe
  have hfits : key.fits .small = true := by decide
  obtain ⟨htotal, houtside⟩ := decrypts_to_total hsafe hfits
  let openings : List (UInt64 × Nat) := [(7, 12), (9, 3)]
  have hleaves : combination.leaves = openings := by
    simp only [combination, leaves, leavesOfAll, Multiset.add_zero]
    rfl
  have hsum : (openings.map fun opening => opening.1.toNat).sum % key.group.q = 5 := by decide
  obtain ⟨ciphertext, hevaluate, hdecrypt⟩ := htotal openings combination hleaves
  rw [hsum] at hdecrypt
  refine ⟨hsafe, hfits, ⟨ciphertext, hevaluate, ?_, ?_⟩, houtside ⟨5, 1⟩ 5 (.inl (by decide))⟩
  · rw [hdecrypt, if_pos le_rfl]
  · rw [hdecrypt, if_neg (by decide)]

end SecretBallot
