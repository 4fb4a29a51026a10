import SecretBallot.Proof.Statement

namespace SecretBallot

structure MembershipProof where
  challenges : List Nat
  responses : List Nat
  deriving DecidableEq

namespace MembershipProof

/-- The plaintexts of a single vote. -/
def voteDomain : List UInt64 := [0, 1]

def label : Bytes :=
  Bytes.ofText "evoting_tally/membership/v1"

/-- The bytes hashed for a proof with the given commitments, one pair for every value. -/
def transcript (context : Bytes) (key : PublicKey) (ciphertext : Ciphertext)
    (domain : List UInt64) (commitments : List (Nat × Nat)) : Bytes :=
  statement label context key [ciphertext] domain
    ++ frameNats (commitments.map (·.1) ++ commitments.map (·.2))

/-- Draws the challenge and the response of every simulated branch; the real one stays zero. -/
def drawBranches (group : Group) (real count : Nat) : Draw (List (Nat × Nat)) :=
  (List.range count).mapM fun i =>
    if i = real then pure (0, 0)
    else do
      let challenge ← Draw.exponent group
      let response ← Draw.exponent group
      pure (challenge, response)

/-- The commitments of a prover that drew `w` for the real branch. -/
def proverCommitments (key : PublicKey) (ciphertext : Ciphertext) (domain : List UInt64)
    (real w : Nat) (branches : List (Nat × Nat)) : Outcome (List (Nat × Nat)) :=
  domain.zipIdx.mapM fun (d, i) =>
    if i = real then do
      let keyPower ← key.group.pow key.h w
      pure (key.group.powG w, keyPower)
    else do
      let (c, s) ← entryAt branches i
      ciphertext.commitments key d c s

/-- The proof that the branches and the hashed challenge give. -/
def complete (group : Group) (real w r challenge : Nat) (branches : List (Nat × Nat)) :
    MembershipProof :=
  let challenges := branches.map (·.1)
  let own := group.subQ challenge (group.sumQ challenges)
  ⟨challenges.set real own,
    (branches.map (·.2)).set real (group.addQ w (group.mulQ own r))⟩

/-- Proves that a ciphertext is the encryption of `m`, a value of the domain, under
    randomness `r`. -/
def proveInDomain (hash : Hash) (key : PublicKey) (ciphertext : Ciphertext)
    (domain : List UInt64) (m : UInt64) (r : Nat) (context : Bytes) :
    Action Prover MembershipProof := do
  match domain.findIdx? (· == m) with
  | none => refuse (.invalidSelection (.outsideDomain m domain))
  | some real =>
    let opened ← Ciphertext.encrypt key m.toNat r
    ensure (opened = ciphertext) (.invalidSelection .notAnOpening)
    let w ← Prover.draw (Draw.exponent key.group)
    let branches ← Prover.draw (drawBranches key.group real domain.length)
    require (real < branches.length) (.indexOutOfRange branches.length real)
    let commitments ← proverCommitments key ciphertext domain real w branches
    let challenge ← Prover.onTranscript
      (Transcript.challengeFor hash key.group
        (transcript context key ciphertext domain commitments))
    pure (complete key.group real w r challenge branches)

/-- What a verifier checks before it computes anything: one challenge and one response for every
    value of the domain, all reduced, and a well-formed ciphertext. -/
def isAdmissible (proof : MembershipProof) (group : Group) (ciphertext : Ciphertext)
    (domain : List UInt64) : Bool :=
  proof.challenges.length == domain.length && proof.responses.length == domain.length
    && (proof.challenges ++ proof.responses).all (· < group.q)
    && ciphertext.isWellFormed group

/-- The commitments that a verifier recomputes. -/
def verifierCommitments (proof : MembershipProof) (key : PublicKey) (ciphertext : Ciphertext)
    (domain : List UInt64) : Outcome (List (Nat × Nat)) :=
  (domain.zip (proof.challenges.zip proof.responses)).mapM fun (d, c, s) =>
    ciphertext.commitments key d c s

/-- Whether a proof shows that the ciphertext encrypts a value of the domain. -/
def verifyInDomain (hash : Hash) (key : PublicKey) (ciphertext : Ciphertext)
    (domain : List UInt64) (proof : MembershipProof) (context : Bytes) :
    Action Transcript Bool := do
  if proof.isAdmissible key.group ciphertext domain then
    let commitments ← proof.verifierCommitments key ciphertext domain
    let challenge ← Transcript.challengeFor hash key.group
      (transcript context key ciphertext domain commitments)
    pure (challenge == key.group.sumQ proof.challenges)
  else pure false

/-- Proves that a ciphertext encrypts zero or one. -/
def prove (hash : Hash) (key : PublicKey) (ciphertext : Ciphertext) (m : UInt64) (r : Nat)
    (context : Bytes) : Action Prover MembershipProof :=
  proveInDomain hash key ciphertext voteDomain m r context

def verify (hash : Hash) (key : PublicKey) (ciphertext : Ciphertext) (proof : MembershipProof)
    (context : Bytes) : Action Transcript Bool :=
  verifyInDomain hash key ciphertext voteDomain proof context

end MembershipProof

end SecretBallot
