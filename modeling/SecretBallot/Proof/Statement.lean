import SecretBallot.Ciphertext
import SecretBallot.Sampling
import SecretBallot.Transcript

namespace SecretBallot

/-- What a prover uses up: random bytes and a transcript. -/
structure Prover where
  supply : Bytes
  transcript : Transcript
  deriving DecidableEq

namespace Prover

variable {α : Type}

def draw (draw : Draw α) : Action Prover α :=
  draw.zoom supply fun supply prover => { prover with supply }

def onTranscript (action : Action Transcript α) : Action Prover α :=
  action.zoom transcript fun transcript prover => { prover with transcript }

/-- Lets a prover work on a fresh transcript. -/
def onFresh (action : Action Prover α) : Draw α :=
  action.zoom (fun supply => ⟨supply, .fresh⟩) fun prover _ => prover.supply

end Prover

/-- Absorbs the bytes of a proof and derives its challenge. -/
def Transcript.challengeFor (hash : Hash) (group : Group) (bytes : Bytes) :
    Action Transcript Nat := do
  modify (·.absorb bytes)
  Transcript.challenge hash group.q

/-- The statement of a proof: its kind, the context it is bound to, the key, the ciphertexts and
    the plaintexts in question. -/
def statement (label context : Bytes) (key : PublicKey) (ciphertexts : List Ciphertext)
    (values : List UInt64) : Bytes :=
  frame label ++ frame context
    ++ frameNats [key.group.p, key.group.g, key.f, key.h]
    ++ ciphertexts.flatMap (fun ciphertext => frameNats [ciphertext.pad, ciphertext.data])
    ++ values.flatMap (fun value => frame (Bytes.ofUInt64 value))

namespace Ciphertext

/-- `data / g ^ d`, which is `h ^ r` if the ciphertext encrypts `d`. -/
def shifted (ciphertext : Ciphertext) (group : Group) (d : UInt64) : Outcome Nat := do
  let inverse ← group.powNeg group.g d.toNat
  pure (group.mul ciphertext.data inverse)

/-- The commitments that a challenge `c` and a response `s` stand for when the ciphertext is said
    to encrypt `d`. -/
def commitments (ciphertext : Ciphertext) (key : PublicKey) (d : UInt64) (c s : Nat) :
    Outcome (Nat × Nat) := do
  let shifted ← ciphertext.shifted key.group d
  let padPower ← key.group.powNeg ciphertext.pad c
  let keyPower ← key.group.pow key.h s
  let shiftedPower ← key.group.powNeg shifted c
  pure (key.group.mul (key.group.powG s) padPower, key.group.mul keyPower shiftedPower)

end Ciphertext

end SecretBallot
