import SecretBallot.Wire.Record

namespace SecretBallot

/-- What a reader delivers: chunks of bytes, then an end or a broken device. A chunk is what one
    reading brings at most; an empty one brings nothing and ends nothing. -/
structure Source where
  chunks : List Bytes
  broken : Bool
  deriving DecidableEq

/-- What a writer has taken, and how many bytes it takes in all if there is a limit. -/
structure Sink where
  taken : Bytes
  limit : Option Nat
  deriving DecidableEq

namespace KeyFile

/-- No key file declares a longer record. -/
def maxRecord : Nat :=
  0x100000

/-- A record behind its length. -/
def frame (record : Bytes) : Except Error Bytes := do
  ensure (record.length < UInt32.size) (.badKey .recordTooLarge)
  pure (Bytes.ofNatBE 4 record.length ++ record)

/-- Up to `count` bytes from the front of some chunks, and what is left of the chunks. -/
def splitChunks : (count : Nat) → List Bytes → Bytes × List Bytes
  | _, [] => ([], [])
  | count, chunk :: rest =>
    if count ≤ chunk.length then (chunk.take count, chunk.drop count :: rest)
    else
      let (more, left) := splitChunks (count - chunk.length) rest
      (chunk ++ more, left)

abbrev Reading := ExceptT Error (StateM Source)

section Read

variable (fault : DeviceFault)

/-- Up to `count` bytes. There are fewer only at the end of the source; a broken source does not
    end, but its device reports a fault. -/
def readUpTo (count : Nat) : Reading Bytes := do
  let source ← get
  let (bytes, left) := splitChunks count source.chunks
  set { source with chunks := left }
  if bytes.length < count ∧ source.broken then throw (.device fault)
  else pure bytes

/-- Exactly `count` bytes. -/
def readExactly (count : Nat) : Reading Bytes := do
  let bytes ← readUpTo fault count
  if bytes.length = count then pure bytes
  else throw (.badKey .truncated)

/-- Exactly `count` bytes, with nothing behind them. -/
def readLast (count : Nat) : Reading Bytes := do
  let bytes ← readExactly fault count
  let rest ← readUpTo fault 1
  if rest = [] then pure bytes
  else throw (.badKey .trailing)

/-- The record of a key file. -/
def readFrame : Reading Bytes := do
  let header ← readExactly fault 4
  let length := header.toNatBE
  if maxRecord < length then throw (.badKey (.declaredLength length))
  else readLast fault length

/-- Reads a key. Whatever is wrong with the record makes it a bad key. -/
def readReporting {α : Type} [Wire.Record α] : Reading α := do
  let record ← readFrame fault
  match Wire.decode record with
  | .ok key => pure key
  | .error cause => throw (.badKeyRecord cause)

end Read

/-- Reads a key from a device that tells no more than that it is broken. -/
def read {α : Type} [Wire.Record α] : Reading α :=
  readReporting .broken

abbrev Writing := ExceptT Error (StateM Sink)

/-- Hands bytes to the writer, which takes what fits below its limit. -/
def writeAll (bytes : Bytes) : Writing Unit := do
  let sink ← get
  match sink.limit with
  | none => set { sink with taken := sink.taken ++ bytes }
  | some limit =>
    let room := limit - sink.taken.length
    set { sink with taken := sink.taken ++ bytes.take room }
    if room < bytes.length then throw (.device .broken)

/-- Writes a key. -/
def write {α : Type} [Wire.Record α] (key : α) : Writing Unit := do
  let bytes ← frame (Wire.encode key)
  writeAll bytes

end KeyFile

end SecretBallot
