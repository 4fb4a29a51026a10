import SecretBallot.Ballot.Plain
import SecretBallot.Ballot.Sealed

namespace SecretBallot

/-- A race: its candidates and how many of them a ballot selects. -/
structure Race where
  limit : UInt64
  candidates : KeySet String
  deriving DecidableEq

/-- A race has candidates, and no more selections than candidates. -/
def Race.IsValid (race : Race) : Prop :=
  0 < race.candidates.size ∧ race.limit.toNat ≤ race.candidates.size

structure Election where
  key : PublicKey
  races : Dict String Race
  races_valid : ∀ entry ∈ races.entries, entry.2.IsValid

namespace Election

/-- Races collected so far, all valid. -/
abbrev ValidRaces := { races : Dict String Race // ∀ entry ∈ races.entries, entry.2.IsValid }

/-- Takes one more race into those collected so far. -/
def addRace (races : ValidRaces) (entry : String × Race) : Except Error ValidRaces :=
  let (name, race) := entry
  let size := race.candidates.size
  if hsize : 0 < size then
    if hlimit : race.limit.toNat ≤ size then
      if races.1.contains name then .error (.invalidConfiguration (.raceTwice name))
      else .ok ⟨races.1.insert name race, fun entry hmem =>
        (Dict.mem_place hmem).elim (fun h => h ▸ ⟨hsize, hlimit⟩) (races.2 entry)⟩
    else .error (.invalidConfiguration (.tooManySelections name race.limit.toNat size))
  else .error (.invalidConfiguration (.noCandidates name))

def new (key : PublicKey) (races : List (String × Race)) : Except Error Election := do
  ensure (races ≠ []) (.invalidConfiguration .noRaces)
  let collected ← races.foldlM addRace ⟨∅, fun _ hmem => nomatch hmem⟩
  pure ⟨key, collected.1, collected.2⟩

def group (election : Election) : Group :=
  election.key.group

/-- Checks one more race of a ballot, given the names seen so far. -/
def checkRace (election : Election) (seen : List String) (race : SealedRace) :
    Except Error (List String) := do
  match election.races.get? race.name with
  | none => throw (.ballotMismatch (.unknownRace race.name))
  | some definition =>
    ensure (race.name ∉ seen) (.ballotMismatch (.raceTwice race.name))
    ensure (race.limit = definition.limit) (.ballotMismatch
      (.wrongLimit race.name race.limit.toNat definition.limit.toNat))
    ensure (race.votes.keys = definition.candidates.keys)
      (.ballotMismatch (.wrongCandidates race.name))
    pure (race.name :: seen)

/-- Checks that a ballot has every race once, with its limit and its candidates. Proofs are
    checked separately. -/
def checkBallot (election : Election) (ballot : SealedBallot) : Except Error Unit := do
  let seen ← ballot.races.foldlM election.checkRace []
  ensure (seen.length = election.races.size)
    (.ballotMismatch (.racesMissing seen.length election.races.size))

/-- A ballot with every race and nothing selected. -/
def blankBallot (election : Election) (id : String) : PlainBallot :=
  ⟨id, election.races.entries.map fun (name, race) =>
    ⟨name, race.limit, race.candidates.map fun _ _ => false⟩⟩

end Election

end SecretBallot
