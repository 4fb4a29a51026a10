import SecretBallot.Proof.Membership
import SecretBallot.Proof.Sum
import SecretBallot.Wire.Writer

namespace SecretBallot

structure SealedVote where
  ciphertext : Ciphertext
  proof : MembershipProof
  deriving DecidableEq

structure SealedRace where
  name : String
  limit : UInt64
  votes : Dict String SealedVote
  sumProof : SumProof
  deriving DecidableEq

/-- An encrypted ballot. All its proofs are bound to its nonce. -/
structure SealedBallot where
  id : String
  nonce : Bytes
  races : List SealedRace
  deriving DecidableEq

/-- The plaintext and the randomness of one vote. -/
structure Opening where
  selected : Bool
  randomness : Nat
  deriving DecidableEq

/-- The openings of a ballot's votes, by race and candidate. -/
structure Witness where
  races : Dict String (Dict String Opening)
  deriving DecidableEq

/-- The plaintext of an opening as a number. -/
def Opening.plaintext (opening : Opening) : UInt64 :=
  if opening.selected then 1 else 0

instance : Wipe Opening :=
  ⟨fun opening => ⟨Wipe.wipe opening.selected, Wipe.wipe opening.randomness⟩⟩

def SealedRace.ciphertexts (race : SealedRace) : List Ciphertext :=
  race.votes.values.map (·.ciphertext)

/-- The first race of the given name. -/
def SealedBallot.race? (ballot : SealedBallot) (name : String) : Option SealedRace :=
  ballot.races.find? (·.name == name)

/-- The number of votes in all races. -/
def SealedBallot.voteCount (ballot : SealedBallot) : Nat :=
  (ballot.races.flatMap (·.votes.entries)).length

namespace Witness

def empty : Witness :=
  ⟨∅⟩

instance : Inhabited Witness := ⟨empty⟩

/-- The number of openings in all races. -/
def size (witness : Witness) : Nat :=
  (witness.races.values.flatMap (·.entries)).length

def get? (witness : Witness) (race candidate : String) : Option Opening := do
  let openings ← witness.races.get? race
  openings.get? candidate

instance : Wipe Witness :=
  ⟨fun witness => ⟨witness.races.map fun _ openings => openings.map fun _ => Wipe.wipe⟩⟩

end Witness

/-- What the membership proof of a vote is bound to. -/
def voteContext (nonce : Bytes) (race candidate : String) : Bytes :=
  Wire.field nonce ++ Wire.textField race ++ Wire.textField candidate

/-- What the sum proof of a race is bound to. -/
def raceContext (nonce : Bytes) (race : String) : Bytes :=
  Wire.field nonce ++ Wire.textField race

end SecretBallot
