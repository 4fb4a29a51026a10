import SecretBallot.Tally.Closed
import SecretBallot.Tally.Record
import SecretBallot.Tally.Report

namespace SecretBallot

/-- Whether the engine takes ballots, has stopped to, or has reported. -/
inductive Phase where
  | opened
  | closed
  | reported
  deriving DecidableEq

structure Entry where
  ballot : SealedBallot
  state : BallotState
  deriving DecidableEq

/-- The state of a tally: recorded ballots by nonce, their nonces by ballot id, and one record for
    every race. -/
structure Engine where
  election : Election
  /-- The largest total that a report searches for. -/
  bound : Nat
  byNonce : Dict Bytes Entry
  byId : Dict String Bytes
  records : Dict String TallyRecord
  phase : Phase

namespace Engine

/-- An open engine without ballots. -/
def new (election : Election) (bound : Nat) : Engine :=
  { election, bound
    byNonce := ∅
    byId := ∅
    records := election.races.map fun _ race => TallyRecord.new race
    phase := .opened }

/-- The ballots in a state. -/
def inState (engine : Engine) (state : BallotState) : List SealedBallot :=
  (engine.byNonce.values.filter (·.state = state)).map (·.ballot)

def pendingCount (engine : Engine) : Nat :=
  (engine.inState .committed).length

def confirmedCount (engine : Engine) : Nat :=
  (engine.inState .confirmed).length

/-- The challenged ballots in the order of their ids. -/
def challenged (engine : Engine) : List SealedBallot :=
  (Dict.ofList ((engine.inState .challenged).map fun ballot => (ballot.id, ballot))).values

/-- The state of the ballot recorded under a nonce. -/
def state? (engine : Engine) (nonce : Bytes) : Option BallotState :=
  (engine.byNonce.get? nonce).map (·.state)

/-- The nonce under which a ballot was recorded. -/
def nonce? (engine : Engine) (ballot : String) : Option Bytes :=
  engine.byId.get? ballot

/-- The record of one race. -/
def record? (engine : Engine) (race : String) : Option TallyRecord :=
  engine.records.get? race

/-- Moves the ballot of a nonce to another state. -/
def move (engine : Engine) (nonce : Bytes) (state : BallotState) : Engine :=
  { engine with byNonce := engine.byNonce.modify nonce fun entry => { entry with state } }

/-- Adds a ballot to the record of every race that it has. -/
def addToRecords (engine : Engine) (ballot : SealedBallot) : Engine :=
  { engine with
    records := engine.records.map fun name record =>
      match ballot.race? name with
      | some race => record.add engine.election.group ballot.id race
      | none => record }

def requireOpen : Action Engine Unit := do
  let engine ← get
  ensure (engine.phase = .opened) .tallyClosed

/-- Records a ballot as committed under its nonce, once it agrees with the election and its
    proofs verify. -/
def record (ballot : SealedBallot) (nonce : Bytes) : Action Engine Unit := do
  requireOpen
  let engine ← get
  ensure (ballot.nonce = nonce)
    (.ballotMismatch (.wrongNonce ballot.id ballot.nonce nonce))
  engine.election.checkBallot ballot
  ballot.verify engine.election.key
  ensure (¬ engine.byNonce.contains nonce) (.duplicateBallot (.nonce nonce))
  ensure (¬ engine.byId.contains ballot.id) (.duplicateBallot (.id ballot.id))
  set { engine with
    byNonce := engine.byNonce.insert nonce ⟨ballot, .committed⟩
    byId := engine.byId.insert ballot.id nonce }

/-- The entry of a nonce, refused if there is none. -/
def entry (nonce : Bytes) : Action Engine Entry := do
  let engine ← get
  match engine.byNonce.get? nonce with
  | some entry => pure entry
  | none => refuse (.unknownBallot (.nonce nonce))

/-- Confirms a committed ballot and counts it in every race. Whether the ballot was still
    committed is returned. -/
def confirm (nonce : Bytes) : Action Engine Bool := do
  requireOpen
  let entry ← entry nonce
  match entry.state with
  | .confirmed => pure false
  | .challenged =>
    refuse (.invalidTransition entry.ballot.id .challenged .confirmed)
  | .committed =>
    modify fun engine => (engine.move nonce .confirmed).addToRecords entry.ballot
    pure true

/-- Challenges a committed ballot, which keeps it out of the tally for good. Whether the ballot
    was still committed is returned. -/
def challenge (nonce : Bytes) : Action Engine Bool := do
  requireOpen
  let entry ← entry nonce
  match entry.state with
  | .challenged => pure false
  | .confirmed =>
    refuse (.invalidTransition entry.ballot.id .confirmed .challenged)
  | .committed =>
    modify fun engine => engine.move nonce .challenged
    pure true

/-- What is left to decrypt. -/
def closedTally (engine : Engine) : ClosedTally :=
  ⟨engine.records.map fun _ record => record.totals, engine.challenged⟩

/-- Opens the challenged ballots with the election key. -/
def audit (engine : Engine) (key : DecryptionKey) : Outcome (Dict String PlainBallot) := do
  ensure (key.fits engine.election.key) (.badKey .noMatch)
  engine.closedTally.openChallenged fun _ _ _ ciphertext => ciphertext.decrypt key 1

/-- Closes the engine to ballots, refused once it has reported. -/
def shut : Action Engine Unit := do
  let engine ← get
  ensure (engine.phase ≠ .reported) .tallyClosed
  set { engine with phase := .closed }

/-- Closes the engine and hands out what the authorities decrypt. -/
def close : Action Engine ClosedTally := do
  shut
  let engine ← get
  pure engine.closedTally

/-- Marks the engine as reported. -/
def publish (races : Dict String (Dict String Nat)) (challenged : Dict String PlainBallot) :
    Action Engine Report := do
  modify fun engine => { engine with phase := .reported }
  pure ⟨races, challenged⟩

/-- Closes the engine and reports with the election key, searching totals up to `bound`. If that
    fails the engine stays closed and a report can be asked for again. -/
def reportWithBound (key : DecryptionKey) (bound : Nat) : Action Engine Report := do
  shut
  let engine ← get
  ensure (key.fits engine.election.key) (.badKey .noMatch)
  let tally := engine.closedTally
  let races ← tally.openTotals fun _ _ total => total.decrypt key bound
  let challenged ← tally.openChallenged fun _ _ _ ciphertext => ciphertext.decrypt key 1
  publish races challenged

/-- Closes the engine and reports with the election key. -/
def report (key : DecryptionKey) : Action Engine Report := do
  let engine ← get
  reportWithBound key engine.bound

/-- Closes the engine and reports from the authorities' shares of the decryption. -/
def reportFromShares (shares : List DecryptionShare) : Action Engine Report := do
  shut
  let engine ← get
  let group := engine.election.group
  let tally := engine.closedTally
  let races ← tally.openTotals fun race candidate total =>
    DecryptionShare.decrypt shares group (.total race candidate) total engine.bound
  let challenged ← tally.openChallenged fun ballot race candidate ciphertext =>
    DecryptionShare.decrypt shares group (.vote ballot race candidate) ciphertext 1
  publish races challenged

end Engine

end SecretBallot
