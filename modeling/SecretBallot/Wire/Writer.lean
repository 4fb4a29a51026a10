import SecretBallot.Bytes

namespace SecretBallot

namespace Wire

def version : UInt8 := 1

/-- A field behind its length. The length is written modulo `2 ^ 32`. -/
def field (bytes : Bytes) : Bytes :=
  Bytes.ofNatBE 4 bytes.length ++ bytes

def natField (n : Nat) : Bytes :=
  field (Bytes.ofNat n)

def wordField (n : UInt64) : Bytes :=
  field (Bytes.ofUInt64 n)

/-- A count of elements, as a word. -/
def countField (count : Nat) : Bytes :=
  wordField (UInt64.ofNat count)

def textField (text : String) : Bytes :=
  field (Bytes.ofText text)

/-- A whole record with the given tag and fields. -/
def record (tag : UInt8) (fields : Bytes) : Bytes :=
  tag :: version :: fields

end Wire

end SecretBallot
