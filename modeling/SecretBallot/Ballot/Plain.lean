import SecretBallot.Dict
import SecretBallot.Failure

namespace SecretBallot

/-- The selections in one race. -/
structure PlainRace where
  name : String
  limit : UInt64
  votes : Dict String Bool
  deriving DecidableEq

structure PlainBallot where
  id : String
  races : List PlainRace
  deriving DecidableEq

/-- How many candidates are selected. -/
def PlainRace.selected (race : PlainRace) : Nat :=
  race.votes.values.count true

namespace PlainBallot

/-- Checks one more race, given the names seen so far. -/
def checkRace (seen : List String) (race : PlainRace) : Except Error (List String) := do
  ensure (race.name ∉ seen) (.invalidSelection (.raceTwice race.name))
  ensure (race.selected = race.limit.toNat)
    (.invalidSelection (.wrongCount race.name race.selected race.limit.toNat))
  pure (race.name :: seen)

/-- Checks that no race appears twice and that each has as many selections as its limit. -/
def check (ballot : PlainBallot) : Except Error Unit := do
  let _ ← ballot.races.foldlM checkRace []
  pure ()

end PlainBallot

end SecretBallot
