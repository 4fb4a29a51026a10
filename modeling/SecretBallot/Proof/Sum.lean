import SecretBallot.Proof.Statement

namespace SecretBallot

structure SumProof where
  challenge : Nat
  response : Nat
  deriving DecidableEq

namespace SumProof

def label : Bytes :=
  Bytes.ofText "evoting_tally/sum/v1"

/-- The bytes hashed for a proof with the given commitments. -/
def transcript (context : Bytes) (key : PublicKey) (ciphertexts : List Ciphertext)
    (total : UInt64) (commitments : Nat × Nat) : Bytes :=
  statement label context key ciphertexts [total]
    ++ frameNats [commitments.1, commitments.2]

/-- Proves that the ciphertexts, made with the given randomness, sum to a total. -/
def prove (hash : Hash) (key : PublicKey) (ciphertexts : List Ciphertext) (total : UInt64)
    (randomness : List Nat) (context : Bytes) : Action Prover SumProof := do
  let group := key.group
  ensure (ciphertexts.length = randomness.length)
    (.countMismatch .ciphertexts ciphertexts.length randomness.length)
  let r := group.sumQ randomness
  let opened ← Ciphertext.encrypt key total.toNat r
  ensure (opened = Ciphertext.combineAll group ciphertexts)
    (.invalidSelection (.notTheTotal total))
  let w ← Prover.draw (Draw.exponent group)
  let keyPower ← group.pow key.h w
  let challenge ← Prover.onTranscript
    (Transcript.challengeFor hash group
      (transcript context key ciphertexts total (group.powG w, keyPower)))
  pure ⟨challenge, group.addQ w (group.mulQ challenge r)⟩

/-- What a verifier checks before it computes anything: a reduced challenge and response, and
    well-formed ciphertexts. -/
def isAdmissible (proof : SumProof) (group : Group) (ciphertexts : List Ciphertext) : Bool :=
  proof.challenge < group.q && proof.response < group.q
    && ciphertexts.all (·.isWellFormed group)

/-- The commitments that a verifier recomputes. -/
def verifierCommitments (proof : SumProof) (key : PublicKey) (ciphertexts : List Ciphertext)
    (total : UInt64) : Outcome (Nat × Nat) :=
  (Ciphertext.combineAll key.group ciphertexts).commitments key total proof.challenge
    proof.response

/-- Whether a proof shows that the ciphertexts sum to a total. -/
def verify (hash : Hash) (key : PublicKey) (ciphertexts : List Ciphertext) (total : UInt64)
    (proof : SumProof) (context : Bytes) : Action Transcript Bool := do
  if proof.isAdmissible key.group ciphertexts then
    let commitments ← proof.verifierCommitments key ciphertexts total
    let challenge ← Transcript.challengeFor hash key.group
      (transcript context key ciphertexts total commitments)
    pure (challenge == proof.challenge)
  else pure false

end SumProof

end SecretBallot
