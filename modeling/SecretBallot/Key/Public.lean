import SecretBallot.Dict
import SecretBallot.Sampling
import SecretBallot.Wipe

namespace SecretBallot

/-- The public half of an authority's key pair. -/
structure PublicShare where
  index : UInt64
  h : Nat
  deriving DecidableEq

/-- An authority's own key pair: `x` and `h = g ^ x`. -/
structure AuthorityKey where
  index : UInt64
  x : Nat
  h : Nat
  deriving DecidableEq

/-- The public key of an election: a group, a second generator `f` and the key element `h`, both
    members other than one. -/
structure PublicKey where
  group : Group
  f : Nat
  h : Nat
  f_generates : group.isGenerator f = true
  h_generates : group.isGenerator h = true
  deriving DecidableEq

namespace AuthorityKey

/-- A fresh key pair. -/
def generate (group : Group) (index : UInt64) : Draw AuthorityKey := do
  let x ← Draw.nonzeroExponent group
  pure ⟨index, x, group.powG x⟩

/-- The key pair of a stored secret. -/
def ofSecret (group : Group) (index : UInt64) (x : Nat) : Except Error AuthorityKey := do
  ensure (index ≠ 0) (.invalidShare .indexZero)
  ensure (index.toNat < group.q) (.invalidShare (.indexNotBelowOrder index.toNat))
  ensure (x ≠ 0 ∧ x < group.q) (.invalidShare (.secretRange index.toNat))
  pure ⟨index, x, group.powG x⟩

def publicShare (key : AuthorityKey) : PublicShare :=
  ⟨key.index, key.h⟩

instance : Wipe AuthorityKey := ⟨fun key => { key with x := Wipe.wipe key.x }⟩

end AuthorityKey

namespace PublicKey

def new (group : Group) (f h : Nat) : Except Error PublicKey :=
  if hf : group.isGenerator f = true then
    if hh : group.isGenerator h = true then .ok ⟨group, f, h, hf, hh⟩
    else .error (.badKey .h)
  else .error (.badKey .f)

/-- Takes one more public share into those collected so far. -/
def collectShare (group : Group) (collected : Dict UInt64 Nat) (share : PublicShare) :
    Except Error (Dict UInt64 Nat) := do
  ensure (group.isGenerator share.h) (.invalidShare (.publicShareOutside share.index.toNat))
  ensure (¬ collected.contains share.index) (.duplicateAuthority share.index.toNat)
  pure (collected.insert share.index share.h)

/-- The key whose element is the product of the public shares, one from each authority. -/
def combine (group : Group) (f : Nat) (shares : List PublicShare) : Except Error PublicKey := do
  ensure (shares ≠ []) (.uninitialized .publicShares)
  let collected ← shares.foldlM (collectShare group) ∅
  new group f (group.product collected.values)

end PublicKey

end SecretBallot
