import SecretBallot.Failure
import SecretBallot.Group.Primality

namespace SecretBallot

/-- A safe prime `p` with a generator `g` of the subgroup of order `(p - 1) / 2`. -/
structure Group where
  p : Nat
  g : Nat
  five_le_p : 5 ≤ p
  p_odd : p % 2 = 1
  p_safe : Primality.isSafePrime p = true
  one_lt_g : 1 < g
  g_lt_p : g < p
  g_order : powMod g ((p - 1) / 2) p = 1
  deriving DecidableEq

namespace Group

/-- Checks a modulus and a generator, in this order: size and parity, primality, range and order
    of the generator. -/
def new (p g : Nat) : Except Error Group :=
  if hsize : 5 ≤ p ∧ p % 2 = 1 then
    if hsafe : Primality.isSafePrime p = true then
      if hrange : 1 < g ∧ g < p then
        if horder : powMod g ((p - 1) / 2) p = 1 then
          .ok ⟨p, g, hsize.1, hsize.2, hsafe, hrange.1, hrange.2, horder⟩
        else .error (.invalidGroup (.generatorOrder g))
      else .error (.invalidGroup (.generatorRange g))
    else .error (.invalidGroup (.notSafePrime p))
  else .error (.invalidGroup (.evenOrSmall p))

variable (group : Group)

/-- The order of the subgroup. -/
def q : Nat :=
  (group.p - 1) / 2

/-- `base ^ exp`, for a reduced base. -/
def pow (base exp : Nat) : Outcome Nat := do
  require (base < group.p) .baseNotReduced
  pure (powMod base exp group.p)

/-- `g ^ exp`. -/
def powG (exp : Nat) : Nat :=
  powMod group.g exp group.p

def mul (a b : Nat) : Nat :=
  a * b % group.p

def addQ (a b : Nat) : Nat :=
  (a + b) % group.q

def subQ (a b : Nat) : Nat :=
  (a % group.q + group.q - b % group.q) % group.q

def mulQ (a b : Nat) : Nat :=
  a * b % group.q

def negQ (a : Nat) : Nat :=
  (group.q - a % group.q) % group.q

/-- `base ^ (-exp)`, for a member of the subgroup. -/
def powNeg (base exp : Nat) : Outcome Nat :=
  group.pow base (group.negQ exp)

/-- The inverse of a non-zero residue modulo `p`. -/
def invert (value : Nat) : Outcome Nat := do
  require (value ≠ 0 ∧ value < group.p) .notInvertible
  pure (powMod value (group.p - 2) group.p)

def div (a b : Nat) : Outcome Nat := do
  let inverse ← group.invert b
  pure (group.mul a inverse)

/-- The inverse of a number that is not zero modulo `q`. -/
def invertQ (a : Nat) : Outcome Nat := do
  require (a % group.q ≠ 0) .zeroExponent
  pure (powMod (a % group.q) (group.q - 2) group.q)

/-- Membership in the subgroup of order `q`. -/
def isMember (value : Nat) : Bool :=
  value != 0 && value < group.p && powMod value group.q group.p == 1

/-- Membership, the neutral element left out: as `q` is prime, such a member generates. -/
def isGenerator (value : Nat) : Bool :=
  group.isMember value && value != 1

/-- The product of elements, starting from one. -/
def product (values : List Nat) : Nat :=
  values.foldl group.mul 1

/-- The sum of exponents modulo `q`. -/
def sumQ (values : List Nat) : Nat :=
  values.foldl group.addQ 0

end Group

end SecretBallot
