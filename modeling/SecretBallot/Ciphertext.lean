import SecretBallot.Key.Private

namespace SecretBallot

/-- A pair `(g ^ r, h ^ r * g ^ m)` for a plaintext `m` and randomness `r`, or two numbers that
    claim to be that. -/
structure Ciphertext where
  pad : Nat
  data : Nat
  deriving DecidableEq

namespace Ciphertext

/-- The encryption of zero under randomness zero. -/
def identity : Ciphertext :=
  ⟨1, 1⟩

instance : Inhabited Ciphertext := ⟨identity⟩

def isWellFormed (ciphertext : Ciphertext) (group : Group) : Bool :=
  group.isMember ciphertext.pad && group.isMember ciphertext.data

/-- The product of two ciphertexts. -/
def combine (group : Group) (a b : Ciphertext) : Ciphertext :=
  ⟨group.mul a.pad b.pad, group.mul a.data b.data⟩

/-- The product of ciphertexts, starting from the identity. -/
def combineAll (group : Group) (ciphertexts : List Ciphertext) : Ciphertext :=
  ciphertexts.foldl (combine group) identity

def encrypt (key : PublicKey) (m r : Nat) : Outcome Ciphertext := do
  let mask ← key.group.pow key.h r
  pure ⟨key.group.powG r, key.group.mul mask (key.group.powG m)⟩

/-- The same plaintext with its randomness shifted by `r`. -/
def reRandomize (ciphertext : Ciphertext) (key : PublicKey) (r : Nat) : Outcome Ciphertext := do
  let zero ← encrypt key 0 r
  pure (combine key.group ciphertext zero)

/-- Counts up from `m`, where `power` is `g ^ m`, until `g ^ m` is the target. -/
def searchFrom (group : Group) (target : Nat) : (steps m power : Nat) → Option Nat
  | 0, _, _ => none
  | steps + 1, m, power =>
    if power = target then some m
    else searchFrom group target steps (m + 1) (group.mul power group.g)

/-- The least `m` up to `bound` with `g ^ m = target`. -/
def search (group : Group) (target bound : Nat) : Except Error Nat :=
  match searchFrom group target (bound + 1) 0 1 with
  | some m => .ok m
  | none => .error (.searchExhausted bound)

/-- Decrypts with the election key a plaintext up to `bound`. -/
def decrypt (key : DecryptionKey) (ciphertext : Ciphertext) (bound : Nat) : Outcome Nat := do
  ensure (ciphertext.isWellFormed key.group) (.malformed .ciphertextOutside)
  let mask ← key.unmask ciphertext.pad
  let target ← key.group.div ciphertext.data mask
  search key.group target bound

/-- One authority's contribution to decrypting a ciphertext. -/
def partialDecrypt (share : PrivateShare) (ciphertext : Ciphertext) :
    Outcome PartialDecryption := do
  ensure (ciphertext.isWellFormed share.group) (.malformed .ciphertextOutside)
  share.partialUnmask ciphertext.pad

/-- Decrypts with the contributions of enough authorities. -/
def decryptWithPartials (group : Group) (ciphertext : Ciphertext)
    (parts : List PartialDecryption) (bound : Nat) : Outcome Nat := do
  ensure (ciphertext.isWellFormed group) (.malformed .ciphertextOutside)
  let mask ← PartialDecryption.combine group parts
  let target ← group.div ciphertext.data mask
  search group target bound

end Ciphertext

end SecretBallot
