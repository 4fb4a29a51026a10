import SecretBallot.Group.Power

namespace SecretBallot

namespace Primality

/-- The primes below 200, used as bases of the rounds. -/
def bases : List Nat :=
  [2, 3, 5, 7, 11, 13, 17, 19, 23, 29, 31, 37, 41, 43, 47, 53, 59, 61, 67, 71, 73, 79, 83, 89,
    97, 101, 103, 107, 109, 113, 127, 131, 137, 139, 149, 151, 157, 163, 167, 173, 179, 181,
    191, 193, 197, 199]

/-- Divides by two while the number is even, at most `fuel` times: the odd part and the number of
    divisions. -/
def oddPart : (fuel : Nat) → Nat → Nat × Nat
  | 0, n => (n, 0)
  | fuel + 1, n =>
    if n % 2 = 0 then
      let (odd, twos) := oddPart fuel (n / 2)
      (odd, twos + 1)
    else (n, 0)

/-- Whether squaring `x` fewer than `times` times modulo `n` meets `n - 1`. -/
def meetsMinusOne (n : Nat) : (times : Nat) → Nat → Bool
  | 0, _ => false
  | times + 1, x => x == n - 1 || meetsMinusOne n times (x * x % n)

/-- One round for the odd number `n`, where `n - 1` is `odd` times two to the `twos`. -/
def passesRound (n odd twos base : Nat) : Bool :=
  let x := powMod base odd n
  x == 1 || meetsMinusOne n twos x

/-- Whether a number passes as prime: it is one of the bases, or no base divides it and it passes
    the round of every base. -/
def isProbablePrime (n : Nat) : Bool :=
  if n < 2 then false
  else if bases.contains n then true
  else if bases.any fun base => n % base == 0 then false
  else
    let (odd, twos) := oddPart n.log2 (n - 1)
    bases.all (passesRound n odd twos)

/-- Whether `p` and `(p - 1) / 2` both pass as prime. -/
def isSafePrime (p : Nat) : Bool :=
  isProbablePrime p && isProbablePrime ((p - 1) / 2)

end Primality

end SecretBallot
