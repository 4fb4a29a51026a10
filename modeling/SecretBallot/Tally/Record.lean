import SecretBallot.Election.Context

namespace SecretBallot

/-- The running totals of one race, still encrypted, and the ids of the ballots in them. -/
structure TallyRecord where
  totals : Dict String Ciphertext
  ballots : KeySet String
  deriving DecidableEq

namespace TallyRecord

/-- No ballot counted yet. -/
def new (race : Race) : TallyRecord :=
  ⟨race.candidates.map fun _ _ => .identity, ∅⟩

/-- Multiplies a vote into the total of its candidate. -/
def addVote (group : Group) (totals : Dict String Ciphertext) (vote : String × SealedVote) :
    Dict String Ciphertext :=
  totals.modify vote.1 fun total => total.combine group vote.2.ciphertext

/-- Multiplies the votes of a ballot into the totals, unless it is among them already. -/
def add (record : TallyRecord) (group : Group) (ballot : String) (race : SealedRace) :
    TallyRecord :=
  if record.ballots.contains ballot then record
  else
    ⟨race.votes.entries.foldl (addVote group) record.totals, record.ballots.insert ballot ()⟩

end TallyRecord

end SecretBallot
