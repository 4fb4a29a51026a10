import SecretBallot.Ballot.Plain
import SecretBallot.Ballot.Sealed

namespace SecretBallot

/-- Encrypts one vote and proves it. -/
def Opening.seal (opening : Opening) (key : PublicKey) (nonce : Bytes)
    (race candidate : String) : Action Prover SealedVote := do
  let ciphertext ← Ciphertext.encrypt key opening.plaintext.toNat opening.randomness
  let proof ← MembershipProof.prove Blake3.hash key ciphertext opening.plaintext
    opening.randomness (voteContext nonce race candidate)
  pure ⟨ciphertext, proof⟩

/-- Encrypts and proves one race, given the opening of every candidate's vote. -/
def sealRace (key : PublicKey) (name : String) (limit : UInt64)
    (openings : Dict String Opening) (nonce : Bytes) : Action Prover SealedRace := do
  let votes ← openings.mapM fun candidate opening => opening.seal key nonce name candidate
  let sumProof ← SumProof.prove Blake3.hash key (votes.values.map (·.ciphertext)) limit
    (openings.values.map (·.randomness)) (raceContext nonce name)
  pure ⟨name, limit, votes, sumProof⟩

/-- Sealed races with their openings as a ballot and its witness. -/
def assemble (id : String) (nonce : Bytes) (races : List (SealedRace × Dict String Opening)) :
    SealedBallot × Witness :=
  (⟨id, nonce, races.map (·.1)⟩,
    ⟨Dict.ofList (races.map fun (race, openings) => (race.name, openings))⟩)

/-- Encrypts one race under fresh randomness. -/
def PlainRace.seal (race : PlainRace) (key : PublicKey) (nonce : Bytes) :
    Action Prover (SealedRace × Dict String Opening) := do
  let openings ← race.votes.mapM fun _ selected => do
    let randomness ← Prover.draw (Draw.exponent key.group)
    pure (⟨selected, randomness⟩ : Opening)
  let sealed ← sealRace key race.name race.limit openings nonce
  pure (sealed, openings)

/-- Encrypts and proves a ballot that passes its check, all proofs bound to the nonce. -/
def PlainBallot.seal (ballot : PlainBallot) (key : PublicKey) (nonce : Bytes) :
    Draw (SealedBallot × Witness) := do
  ballot.check
  let races ← Prover.onFresh (ballot.races.mapM fun race => race.seal key nonce)
  pure (assemble ballot.id nonce races)

/-- Checks that the witness opens a vote, and shifts its randomness. -/
def Witness.shift (witness : Witness) (key : PublicKey) (race candidate : String)
    (vote : SealedVote) : Action Prover Opening := do
  match witness.get? race candidate with
  | none => refuse (.ballotMismatch (.noWitness race candidate))
  | some opening =>
    let opened ← Ciphertext.encrypt key opening.plaintext.toNat opening.randomness
    ensure (opened = vote.ciphertext) (.ballotMismatch (.wrongWitness race candidate))
    let shift ← Prover.draw (Draw.exponent key.group)
    pure ⟨opening.selected, key.group.addQ opening.randomness shift⟩

/-- Encrypts one race again. -/
def SealedRace.reseal (race : SealedRace) (key : PublicKey) (witness : Witness)
    (nonce : Bytes) : Action Prover (SealedRace × Dict String Opening) := do
  let openings ← race.votes.mapM fun candidate vote =>
    witness.shift key race.name candidate vote
  let sealed ← sealRace key race.name race.limit openings nonce
  pure (sealed, openings)

/-- Re-randomizes every ciphertext of a ballot and proves the result under a new nonce. The
    witness has to open the ballot; the returned one opens the new ballot. -/
def SealedBallot.reseal (ballot : SealedBallot) (key : PublicKey) (witness : Witness)
    (nonce : Bytes) : Draw (SealedBallot × Witness) := do
  ensure (witness.size = ballot.voteCount) (.ballotMismatch .witnessSize)
  let races ← Prover.onFresh (ballot.races.mapM fun race => race.reseal key witness nonce)
  pure (assemble ballot.id nonce races)

end SecretBallot
