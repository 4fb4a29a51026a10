namespace SecretBallot

/-- `acc * base ^ exp` modulo `m`, for an exponent of at most `digits` binary digits. -/
def powerStep (m : Nat) : (digits : Nat) → (base exp acc : Nat) → Nat
  | 0, _, _, acc => acc
  | digits + 1, base, exp, acc =>
    powerStep m digits (base * base % m) (exp / 2)
      (if exp % 2 = 1 then acc * base % m else acc)

/-- `base ^ exp` modulo `m`. -/
def powMod (base exp m : Nat) : Nat :=
  powerStep m (exp.log2 + 1) (base % m) exp (1 % m)

end SecretBallot
