namespace SecretBallot

/-- Where a recorded ballot stands. It enters as committed and leaves that state once, for good:
    a confirmed ballot is counted, a challenged one is opened for audit. -/
inductive BallotState where
  | committed
  | confirmed
  | challenged
  deriving DecidableEq

def BallotState.name : BallotState → String
  | .committed => "committed"
  | .confirmed => "confirmed"
  | .challenged => "challenged"

end SecretBallot
