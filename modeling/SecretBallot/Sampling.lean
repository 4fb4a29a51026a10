import SecretBallot.Bytes
import SecretBallot.Failure
import SecretBallot.Group.Basic

namespace SecretBallot

/-- An operation that takes random bytes from the front of a supply. -/
abbrev Draw := Action Bytes

namespace Draw

/-- The next `count` bytes. -/
def bytes (count : Nat) : Draw Bytes := do
  let supply ← get
  let taken := supply.take count
  if taken.length = count then
    set (supply.drop count)
    pure taken
  else throwThe Failure .exhausted

variable {α : Type}

/-- Draws until a value is accepted, at most `tries` times. -/
def retryUpTo (draw : Draw α) (accept : α → Bool) : (tries : Nat) → Draw α
  | 0 => throwThe Failure .exhausted
  | tries + 1 => do
    let value ← draw
    if accept value then pure value else retryUpTo draw accept tries

/-- Draws until a value is accepted. A draw that takes at least one byte cannot be repeated more
    often than the supply has bytes. -/
def retry (draw : Draw α) (accept : α → Bool) : Draw α := do
  let supply ← get
  retryUpTo draw accept (supply.length + 1)

/-- The bytes taken by one try at a number below `bound`. -/
def tryLength (bound : Nat) : Nat :=
  (bitLength bound + 7) / 8

/-- How many bits of a try the bound does not have. -/
def excess (bound : Nat) : Nat :=
  8 * tryLength bound - bitLength bound

/-- One try at a number below `bound`: its bytes, the highest first, with the excess bits of the
    first one cleared. -/
def attempt (bound : Nat) : Draw Nat := do
  let chunk ← bytes (tryLength bound)
  let first ← entryAt chunk 0
  let cleared ← replaceAt chunk 0 (first &&& (0xff >>> UInt8.ofNat (excess bound)))
  pure (Bytes.toNatBE cleared)

/-- A number below `bound`, by rejection. -/
def below (bound : Nat) : Draw Nat := do
  require (bound ≠ 0) .emptyRange
  retry (attempt bound) (· < bound)

/-- An exponent below `q`. -/
def exponent (group : Group) : Draw Nat :=
  below group.q

def nonzeroExponent (group : Group) : Draw Nat :=
  retry (exponent group) (· ≠ 0)

/-- A generator of the subgroup other than `g`, or any if `g` is the only one. -/
def generator (group : Group) : Draw Nat :=
  retry (group.powG <$> nonzeroExponent group) fun value => value ≠ group.g || group.q ≤ 2

/-- The 32 bytes that tie the proofs of a ballot together. -/
def nonce : Draw Bytes :=
  bytes 32

end Draw

end SecretBallot
