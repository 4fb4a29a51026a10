import SecretBallot.Sampling
import SecretBallot.Wipe

namespace SecretBallot

/-- A polynomial over the exponents, its constant term first. The constant term is the secret. -/
structure Polynomial where
  coefficients : List Nat
  deriving DecidableEq

/-- The elements `g ^ c` for the coefficients `c` of a polynomial, or a list that claims to be
    that. -/
structure Commitment where
  elements : List Nat
  deriving DecidableEq

/-- Powers of a number modulo `q` with so many more behind them, each the product of the first power
    and the last one. -/
def Group.extendPowersQ (group : Group) :
    (more : Nat) → (powers : List Nat) → 2 ≤ powers.length → List Nat
  | 0, powers, _ => powers
  | more + 1, powers, htwo =>
    group.extendPowersQ more (powers ++ [group.mulQ powers[1] powers[powers.length - 1]])
      (by rw [List.length_append]; exact Nat.le_add_right_of_le htwo)

/-- The first `count` powers of `x` modulo `q`. -/
def Group.powersQ (group : Group) (x count : Nat) : List Nat :=
  (group.extendPowersQ (count - 2) [1, x % group.q] (Nat.le_refl 2)).take count

namespace Draw

/-- Exponents drawn one after the other. -/
def exponents (group : Group) : (count : Nat) → Draw (List Nat)
  | 0 => pure []
  | count + 1 => do
    let first ← exponent group
    let rest ← exponents group count
    pure (first :: rest)

end Draw

namespace Polynomial

/-- A polynomial of the given degree bound with `secret` as constant term. A constant term is
    drawn like the other coefficients, then replaced. -/
def sample (group : Group) (degree secret : Nat) : Draw Polynomial := do
  let drawn ← Draw.exponents group (degree + 1)
  let coefficients ← replaceAt drawn 0 (secret % group.q)
  pure ⟨coefficients⟩

/-- The value at `x`. -/
def evaluate (polynomial : Polynomial) (group : Group) (x : Nat) : Nat :=
  group.sumQ (List.zipWith group.mulQ polynomial.coefficients
    (group.powersQ x polynomial.coefficients.length))

def commit (polynomial : Polynomial) (group : Group) : Commitment :=
  ⟨polynomial.coefficients.map group.powG⟩

instance : Wipe Polynomial := ⟨fun polynomial => ⟨Wipe.wipe polynomial.coefficients⟩⟩

end Polynomial

namespace Commitment

/-- What the dealer commits to as its public share, the image of the constant term. -/
def publicShare (commitment : Commitment) : Option Nat :=
  commitment.elements.head?

/-- Whether `g ^ share` is the product of the committed elements to the powers of `x`. Elements
    outside the subgroup never verify. -/
def verifyShare (commitment : Commitment) (group : Group) (x share : Nat) : Outcome Bool :=
  if commitment.elements.all group.isMember then do
    let powers := group.powersQ x commitment.elements.length
    let factors ← (commitment.elements.zip powers).mapM fun (element, power) =>
      group.pow element power
    pure (group.powG share == group.product factors)
  else pure false

/-- The elements in lowercase hexadecimal digits, commas between them. -/
def text (commitment : Commitment) : String :=
  ",".intercalate (commitment.elements.map fun element =>
    String.ofList (Nat.toDigits 16 element))

end Commitment

end SecretBallot
