import SecretBallot.Key.Public
import SecretBallot.Sharing.Lagrange

namespace SecretBallot

/-- One authority's point on the joint sharing polynomial. -/
structure PrivateShare where
  group : Group
  index : UInt64
  threshold : UInt64
  value : Nat
  index_ne_zero : index ≠ 0
  threshold_ne_zero : threshold ≠ 0
  index_lt_q : index.toNat < group.q
  value_lt_q : value < group.q
  deriving DecidableEq

/-- One authority's contribution to unmasking an element: the element to the power of the
    authority's share, or a number that claims to be that. -/
structure PartialDecryption where
  index : UInt64
  threshold : UInt64
  value : Nat
  deriving DecidableEq

/-- The election's private key. -/
structure DecryptionKey where
  group : Group
  x : Nat
  deriving DecidableEq

namespace PrivateShare

def new (group : Group) (index threshold : UInt64) (value : Nat) : Except Error PrivateShare :=
  if hindex : index ≠ 0 ∧ threshold ≠ 0 then
    if hrange : index.toNat < group.q then
      if hvalue : value < group.q then
        .ok ⟨group, index, threshold, value, hindex.1, hindex.2, hrange, hvalue⟩
      else .error (.invalidShare (.shareNotReduced index.toNat))
    else .error (.invalidShare (.indexNotBelowOrder index.toNat))
  else .error (.invalidParameters 0 threshold.toNat index.toNat)

def partialUnmask (share : PrivateShare) (value : Nat) : Outcome PartialDecryption := do
  let unmasked ← share.group.pow value share.value
  pure ⟨share.index, share.threshold, unmasked⟩

instance : Wipe PrivateShare :=
  ⟨fun share => { share with value := 0, value_lt_q := Nat.zero_lt_of_lt share.value_lt_q }⟩

end PrivateShare

/-- The entries of the `threshold` lowest indices, refused if there are fewer. -/
def lowestPoints (threshold : UInt64) (collected : Dict UInt64 Nat) :
    Except Error (List (Nat × Nat)) := do
  ensure (threshold.toNat ≤ collected.size) (.notEnoughShares collected.size threshold.toNat)
  pure ((collected.entries.take threshold.toNat).map fun (index, value) => (index.toNat, value))

/-- Stores a value under an index, refused if a different value is there already. -/
def storePoint (collected : Dict UInt64 Nat) (index : UInt64) (value : Nat) :
    Except Error (Dict UInt64 Nat) := do
  ensure ((collected.get? index).all (· == value)) (.duplicateAuthority index.toNat)
  pure (collected.insert index value)

namespace DecryptionKey

/-- `value ^ x`, the mask of a ciphertext whose first component is `value`. -/
def unmask (key : DecryptionKey) (value : Nat) : Outcome Nat :=
  key.group.pow value key.x

/-- Whether the key decrypts what is encrypted under a public key. -/
def fits (key : DecryptionKey) (publicKey : PublicKey) : Bool :=
  key.group == publicKey.group && key.group.powG key.x == publicKey.h

instance : Wipe DecryptionKey := ⟨fun key => { key with x := Wipe.wipe key.x }⟩

/-- Takes one more share into those collected so far, all of one group and one threshold. -/
def collectShare (group : Group) (threshold : UInt64) (collected : Dict UInt64 Nat)
    (share : PrivateShare) : Except Error (Dict UInt64 Nat) := do
  ensure (share.group = group ∧ share.threshold = threshold)
    (.invalidShare (.otherElection share.index.toNat))
  storePoint collected share.index share.value

/-- The points of the `threshold` authorities with the lowest indices. -/
def points (group : Group) (threshold : UInt64) (shares : List PrivateShare) :
    Except Error (List (Nat × Nat)) := do
  let collected ← shares.foldlM (collectShare group threshold) ∅
  lowestPoints threshold collected

/-- Rebuilds the key from the shares of at least `threshold` authorities. -/
def combine : List PrivateShare → Outcome DecryptionKey
  | [] => refuse (.uninitialized .privateShares)
  | first :: rest => do
    let points ← points first.group first.threshold (first :: rest)
    let x ← first.group.interpolate points
    pure ⟨first.group, x⟩

end DecryptionKey

namespace PartialDecryption

/-- Takes one more partial decryption into those collected so far. -/
def collect (group : Group) (threshold : UInt64) (collected : Dict UInt64 Nat)
    (part : PartialDecryption) : Except Error (Dict UInt64 Nat) := do
  ensure (part.threshold = threshold) (.invalidShare (.otherThreshold part.index.toNat))
  ensure (part.index ≠ 0 ∧ part.index.toNat < group.q)
    (.invalidShare (.partialIndex part.index.toNat))
  ensure (group.isMember part.value) (.invalidShare (.partialOutside part.index.toNat))
  storePoint collected part.index part.value

/-- The points of the `threshold` authorities with the lowest indices. -/
def points (group : Group) (threshold : UInt64) (parts : List PartialDecryption) :
    Except Error (List (Nat × Nat)) := do
  let collected ← parts.foldlM (collect group threshold) ∅
  lowestPoints threshold collected

/-- Recovers the mask from the partial decryptions of at least `threshold` authorities. -/
def combine (group : Group) : List PartialDecryption → Outcome Nat
  | [] => refuse (.uninitialized .partials)
  | first :: rest => do
    ensure (first.threshold ≠ 0) (.invalidParameters 0 0 0)
    let points ← points group first.threshold (first :: rest)
    group.interpolateInExponent points

end PartialDecryption

end SecretBallot
