import SecretBallot.KeyFile.Frame
import SecretBallot.KeyFile.Storage

namespace SecretBallot

namespace KeyFile

def publicName : String := "public.key"

/-- The file of a private share: `private.key` if there is only one share, otherwise named by the
    index of its authority. -/
def privateName (index : UInt64) (count : Nat) : String :=
  if count = 1 then "private.key" else s!"private-{index}.key"

/-- Where a file of a directory is found. -/
def pathIn (directory name : String) : String :=
  if directory = "" ∨ directory.endsWith "/" then directory ++ name
  else directory ++ "/" ++ name

/-- Everyone may read, the owner may write. -/
def publicMode : Nat := 0o644

/-- The owner alone may read and write. -/
def privateMode : Nat := 0o600

/-- Whether permission bits grant nothing to group and others. -/
def isPrivate (mode : Nat) : Bool :=
  mode % 0o100 == 0

/-- Saves one key. -/
def save {α : Type} [Wire.Record α] (directory : Location) (name : String) (mode : Nat)
    (key : α) : Storing Unit := do
  let location ← Storing.create directory name mode
  let content ← frame (Wire.encode key)
  Storing.fill location content

/-- Saves the public key and the private shares in a directory, which is made if it is missing.
    The names of the files are returned, the public key's first. -/
def saveAll (directory : Location) (key : PublicKey) (shares : List PrivateShare) :
    Storing (List String) := do
  Storing.makeDirectory [] directory
  save directory publicName publicMode key
  let names ← shares.mapM fun share => do
    let name := privateName share.index shares.length
    save directory name privateMode share
    pure name
  pure (publicName :: names)

/-- The start of the hash of a public key's binary form, by which keys are compared. -/
def fingerprint (key : PublicKey) : String :=
  Bytes.hex ((Blake3.hash (Wire.encode key)).take 16)

/-- Loads a key from the file that a path leads to. -/
def load {α : Type} [Wire.Record α] (storage : Storage) (directory : Location)
    (path : String) : Except Error α :=
  match storage.content directory path with
  | .error fault => .error (.device fault)
  | .ok content => (read ⟨[content], false⟩).1

end KeyFile

end SecretBallot
