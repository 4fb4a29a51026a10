import SecretBallot.Ballot.Plain
import SecretBallot.Ballot.Sealed

namespace SecretBallot

/-- How a vote is decrypted, given its race and candidate. -/
abbrev VoteOpener := (race candidate : String) → Ciphertext → Outcome Nat

def SealedRace.openWith (race : SealedRace) (opener : VoteOpener) : Outcome PlainRace := do
  let votes ← race.votes.mapM fun candidate vote => do
    let plaintext ← opener race.name candidate vote.ciphertext
    pure (plaintext == 1)
  pure ⟨race.name, race.limit, votes⟩

def SealedBallot.openWith (ballot : SealedBallot) (opener : VoteOpener) :
    Outcome PlainBallot := do
  let races ← ballot.races.mapM (·.openWith opener)
  pure ⟨ballot.id, races⟩

/-- Opens every vote with the election key. -/
def SealedBallot.decrypt (ballot : SealedBallot) (key : DecryptionKey) : Outcome PlainBallot :=
  ballot.openWith fun _ _ ciphertext => Ciphertext.decrypt key ciphertext 1

/-- Lets a verifier work on a fresh transcript. -/
def Transcript.onFresh {α : Type} (action : Action Transcript α) : Outcome α :=
  (action fresh).1

/-- Verifies the membership proofs of a race. -/
def SealedRace.verifyVotes (race : SealedRace) (key : PublicKey) (nonce : Bytes) :
    Outcome Unit :=
  race.votes.entries.forM fun (candidate, vote) => do
    let valid ← Transcript.onFresh (MembershipProof.verify Blake3.hash key vote.ciphertext
      vote.proof (voteContext nonce race.name candidate))
    ensure valid (.invalidProof (.membership race.name candidate))

/-- Verifies the sum proof of a race. -/
def SealedRace.verifySum (race : SealedRace) (key : PublicKey) (nonce : Bytes) :
    Outcome Unit := do
  let valid ← Transcript.onFresh (SumProof.verify Blake3.hash key race.ciphertexts race.limit
    race.sumProof (raceContext nonce race.name))
  ensure valid (.invalidProof (.sum race.name))

/-- Verifies every membership proof on a ballot, then every sum proof, against its own nonce. -/
def SealedBallot.verify (ballot : SealedBallot) (key : PublicKey) : Outcome Unit := do
  ballot.races.forM fun race => race.verifyVotes key ballot.nonce
  ballot.races.forM fun race => race.verifySum key ballot.nonce

end SecretBallot
