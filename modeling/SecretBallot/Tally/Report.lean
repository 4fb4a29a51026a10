import SecretBallot.Ballot.Plain

namespace SecretBallot

/-- The result of an election: a count for every candidate of every race, and the challenged
    ballots opened, by id. -/
structure Report where
  races : Dict String (Dict String Nat)
  challenged : Dict String PlainBallot
  deriving DecidableEq

namespace Report

/-- The count of one candidate. -/
def total? (report : Report) (race candidate : String) : Option Nat := do
  let totals ← report.races.get? race
  totals.get? candidate

/-- The counts in decimal digits, by race and candidate with a slash between them. -/
def lines (report : Report) : Dict String String :=
  Dict.ofList (report.races.entries.flatMap fun (race, totals) =>
    totals.entries.map fun (candidate, count) => (s!"{race}/{candidate}", toString count))

/-- One line for every count. -/
def text (report : Report) : String :=
  String.join (report.lines.entries.map fun (name, count) => s!"{name}: {count}\n")

end Report

end SecretBallot
