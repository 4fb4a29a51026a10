import SecretBallot.Failure
import SecretBallot.Wire.Writer

namespace SecretBallot

namespace Wire

/-- The bytes of a record that are still to be read, and the number of bytes before them. -/
structure Reader where
  offset : Nat
  rest : Bytes
  deriving DecidableEq

/-- An operation on a reader that may refuse what it finds. -/
abbrev Decoder := ExceptT Error (StateM Reader)

/-- A reader behind the header of a record with the given tag. -/
def Reader.new (tag : UInt8) : Bytes → Except Error Reader
  | found :: foundVersion :: rest => do
    ensure (found = tag) (.malformed (.wrongTag tag found))
    ensure (foundVersion = version) (.malformed (.wrongVersion foundVersion))
    pure ⟨2, rest⟩
  | _ => .error (.malformed .noHeader)

/-- Refuses unless all bytes have been read. -/
def Reader.finish (reader : Reader) : Except Error Unit :=
  ensure (reader.rest = []) (.malformed (.trailing reader.rest.length))

namespace Decoder

/-- The next `count` bytes. -/
def take (count : Nat) : Decoder Bytes := do
  let reader ← get
  let left := reader.rest.length
  if left < count then throw (.malformed (.truncated count reader.offset left))
  else
    set (⟨reader.offset + count, reader.rest.drop count⟩ : Reader)
    pure (reader.rest.take count)

/-- The next field. -/
def field : Decoder Bytes := do
  let length ← take 4
  take length.toNatBE

def nat : Decoder Nat := do
  let bytes ← field
  pure bytes.toNatBE

/-- A field of eight bytes as a word. -/
def word : Decoder UInt64 := do
  let bytes ← field
  if bytes.length = 8 then pure (UInt64.ofNat bytes.toNatBE)
  else throw (.malformed (.integerWidth bytes.length))

/-- A number of elements to come. As every element takes at least the four bytes of a length, a
    number that cannot fit is refused at once. -/
def count : Decoder Nat := do
  let n ← word
  let reader ← get
  if n.toNat ≤ reader.rest.length / 4 then pure n.toNat
  else throw (.malformed (.countTooLarge n.toNat))

def text : Decoder String := do
  let bytes ← field
  match bytes.toText? with
  | some text => pure text
  | none => throw (.malformed .notText)

/-- Reads the same kind of element `count` times. -/
def repeated {α : Type} (element : Decoder α) : (count : Nat) → Decoder (List α)
  | 0 => pure []
  | count + 1 => do
    let first ← element
    let rest ← repeated element count
    pure (first :: rest)

end Decoder

end Wire

end SecretBallot
