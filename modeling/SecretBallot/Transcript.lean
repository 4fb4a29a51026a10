import SecretBallot.Blake3

namespace SecretBallot

/-- A function from absorbed bytes to 64 bytes of output. -/
abbrev Hash := Bytes → Bytes

/-- A field behind its length in eight bytes, the lowest first. -/
def frame (field : Bytes) : Bytes :=
  Bytes.ofNatLE 8 field.length ++ field

/-- A number as a field. -/
def frameNat (n : Nat) : Bytes :=
  frame (Bytes.ofNat n)

/-- Numbers as fields, one after the other. -/
def frameNats (numbers : List Nat) : Bytes :=
  numbers.flatMap frameNat

/-- What has been absorbed since the last challenge, and the room that hash output passes
    through. -/
structure Transcript where
  absorbed : Bytes
  buffer : Bytes
  deriving DecidableEq

namespace Transcript

/-- Nothing absorbed, the buffer zero. -/
def fresh : Transcript :=
  ⟨[], List.replicate 64 0⟩

instance : Inhabited Transcript := ⟨fresh⟩

def absorb (transcript : Transcript) (bytes : Bytes) : Transcript :=
  { transcript with absorbed := transcript.absorbed ++ bytes }

/-- The challenge that the absorbed bytes give. -/
def value (hash : Hash) (absorbed : Bytes) (modulus : Nat) : Nat :=
  (hash absorbed).toNatLE % modulus

/-- Derives a challenge and starts afresh, the buffer overwritten with zeros. -/
def challenge (hash : Hash) (modulus : Nat) : StateM Transcript Nat := do
  let transcript ← get
  set fresh
  pure (value hash transcript.absorbed modulus)

end Transcript

end SecretBallot
