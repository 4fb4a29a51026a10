import SecretBallot.Tally.Engine
import SecretBallot.Wire.Record

namespace SecretBallot

/-- A voting machine committed to an encrypted ballot, sent in its binary form. -/
structure CommitEvent where
  sender : UInt32
  nonce : Bytes
  payload : Bytes
  ballot : String
  precinct : String
  deriving DecidableEq

/-- A scanner accepted a ballot on paper. -/
structure ScanEvent where
  sender : UInt32
  ballot : String
  deriving DecidableEq

/-- The message for a ballot. -/
def CommitEvent.new (sender : UInt32) (precinct : String) (ballot : SealedBallot) :
    CommitEvent :=
  ⟨sender, ballot.nonce, Wire.encode ballot, ballot.id, precinct⟩

namespace Engine

/-- Records the ballot that a message carries, provided it is the one that the message names. -/
def handleCommit (event : CommitEvent) : Action Engine Unit := do
  let ballot ← (Wire.decode event.payload : Except Error SealedBallot)
  ensure (ballot.id = event.ballot) (.ballotMismatch (.wrongName event.ballot ballot.id))
  record ballot event.nonce

/-- Confirms the ballot that was scanned. -/
def handleScan (event : ScanEvent) : Action Engine Bool := do
  let engine ← get
  match engine.nonce? event.ballot with
  | some nonce => confirm nonce
  | none => refuse (.unknownBallot (.id event.ballot))

end Engine

end SecretBallot
