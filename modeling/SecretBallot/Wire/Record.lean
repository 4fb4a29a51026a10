import SecretBallot.Ballot.Sealed
import SecretBallot.Wire.Reader

namespace SecretBallot

namespace Wire

/-- A kind of value that has a binary form. -/
class Record (α : Type) where
  tag : UInt8
  /-- The fields of a value, one after the other. -/
  fields : α → Bytes
  read : Decoder α

/-- The binary form of a value. -/
def encode {α : Type} [Record α] (value : α) : Bytes :=
  record (Record.tag α) (Record.fields value)

/-- The value with the given binary form, the whole input used up. -/
def decode {α : Type} [Record α] (bytes : Bytes) : Except Error α := do
  let reader ← Reader.new (Record.tag α) bytes
  let (outcome, reader) := (Record.read : Decoder α) reader
  let value ← outcome
  reader.finish
  pure value

/-- A record as a field of another. -/
def nestedField {α : Type} [Record α] (value : α) : Bytes :=
  field (encode value)

/-- Reads a record that is a field of another. -/
def Decoder.nested {α : Type} [Record α] : Decoder α := do
  let bytes ← Decoder.field
  decode bytes

instance : Record Group where
  tag := 0x01
  fields group := natField group.p ++ natField group.g
  read := do
    let p ← Decoder.nat
    let g ← Decoder.nat
    Group.new p g

instance : Record PublicKey where
  tag := 0x02
  fields key := nestedField key.group ++ natField key.f ++ natField key.h
  read := do
    let group ← Decoder.nested
    let f ← Decoder.nat
    let h ← Decoder.nat
    PublicKey.new group f h

instance : Record PrivateShare where
  tag := 0x03
  fields share := nestedField share.group ++ wordField share.index ++ wordField share.threshold
    ++ natField share.value
  read := do
    let group ← Decoder.nested
    let index ← Decoder.word
    let threshold ← Decoder.word
    let value ← Decoder.nat
    PrivateShare.new group index threshold value

instance : Record Ciphertext where
  tag := 0x10
  fields ciphertext := natField ciphertext.pad ++ natField ciphertext.data
  read := do
    let pad ← Decoder.nat
    let data ← Decoder.nat
    pure ⟨pad, data⟩

instance : Record MembershipProof where
  tag := 0x11
  fields proof := countField proof.challenges.length
    ++ (proof.challenges ++ proof.responses).flatMap natField
  read := do
    let count ← Decoder.count
    let challenges ← Decoder.repeated Decoder.nat count
    let responses ← Decoder.repeated Decoder.nat count
    pure ⟨challenges, responses⟩

instance : Record SumProof where
  tag := 0x12
  fields proof := natField proof.challenge ++ natField proof.response
  read := do
    let challenge ← Decoder.nat
    let response ← Decoder.nat
    pure ⟨challenge, response⟩

def voteFields (candidate : String) (vote : SealedVote) : Bytes :=
  textField candidate ++ nestedField vote.ciphertext ++ nestedField vote.proof

def raceFields (race : SealedRace) : Bytes :=
  textField race.name ++ wordField race.limit ++ countField race.votes.size
    ++ race.votes.entries.flatMap (fun (candidate, vote) => voteFields candidate vote)
    ++ nestedField race.sumProof

namespace Decoder

def vote : Decoder (String × SealedVote) := do
  let candidate ← text
  let ciphertext ← nested
  let proof ← nested
  pure (candidate, ⟨ciphertext, proof⟩)

/-- Reads votes into those read so far. A candidate may be listed once. -/
def votes (race : String) : (count : Nat) → Dict String SealedVote →
    Decoder (Dict String SealedVote)
  | 0, found => pure found
  | count + 1, found => do
    let (candidate, vote) ← vote
    if found.contains candidate then throw (.malformed (.candidateTwice race))
    else votes race count (found.insert candidate vote)

def race : Decoder SealedRace := do
  let name ← text
  let limit ← word
  let count ← count
  let votes ← votes name count ∅
  let sumProof ← nested
  pure ⟨name, limit, votes, sumProof⟩

end Decoder

instance : Record SealedBallot where
  tag := 0x20
  fields ballot := textField ballot.id ++ field ballot.nonce ++ countField ballot.races.length
    ++ ballot.races.flatMap raceFields
  read := do
    let id ← Decoder.text
    let nonce ← Decoder.field
    let count ← Decoder.count
    let races ← Decoder.repeated Decoder.race count
    pure ⟨id, nonce, races⟩

end Wire

end SecretBallot
