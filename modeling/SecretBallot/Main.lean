import SecretBallot.CommandLine
import SecretBallot.Group.Standard
import SecretBallot.KeyFile.Directory

namespace SecretBallot

namespace KeyGenerator

/-- Runs a draw on `count` random bytes, or on more as long as they do not suffice. -/
partial def run {α : Type} (draw : Draw α) (count : Nat) : IO (Outcome α) := do
  let supply ← IO.getRandomBytes count.toUSize
  match (draw supply.toList).1 with
  | .error .exhausted => run draw (count * 2)
  | outcome => pure outcome

/-- The rights of owner, group and others that permission bits grant. -/
def rights (mode : Nat) : IO.FileRight :=
  let right (digit : Nat) : IO.AccessRight :=
    ⟨digit / 4 % 2 == 1, digit / 2 % 2 == 1, digit % 2 == 1⟩
  ⟨right (mode / 0o100 % 8), right (mode / 0o10 % 8), right (mode % 8)⟩

/-- Opens a file for writing. A new file that is private is so before anything is written. -/
def openFile (path : String) (mode : Nat) : IO IO.FS.Handle := do
  try
    let handle ← IO.FS.Handle.mk path .writeNew
    if KeyFile.isPrivate mode then IO.setAccessRights path (rights mode)
    pure handle
  catch _ => IO.FS.Handle.mk path .write

/-- Writes the named files of the root of a storage, and returns where they are. -/
def writeFiles (path : String) (names : List String) (storage : Storage) :
    IO (List String) := do
  if path ≠ "" then IO.FS.createDirAll path
  names.mapM fun name => do
    let file := KeyFile.pathIn path name
    match storage.node? [name] with
    | some (.file content mode) =>
      let handle ← openFile file mode
      handle.write ⟨content.toArray⟩
    | _ => pure ()
    pure file

/-- Makes keys and saves them. -/
def generate (path : String) (size : CeremonySize) : IO Unit := do
  let draw : Draw (PublicKey × List PrivateShare) := do
    let group ← Group.standard
    size.runCeremony group
  match ← run draw 65536 with
  | .error failure => throw (.userError failure.message)
  | .ok (key, shares) =>
    match KeyFile.saveAll [] key shares ∅ with
    | (.error error, _) => throw (.userError error.message)
    | (.ok names, storage) =>
      let files ← writeFiles path names storage
      IO.println ("public key fingerprint: " ++ KeyFile.fingerprint key)
      files.forM fun file => IO.println file

end KeyGenerator

end SecretBallot

open SecretBallot in
/-- Runs the key generator. -/
def main (arguments : List String) : IO UInt32 := do
  match CommandLine.plan arguments with
  | .exit code complaint =>
    let output ← if code = 0 then IO.getStdout else IO.getStderr
    output.putStrLn (complaint.getD CommandLine.usage)
    pure code
  | .run path size =>
    try
      KeyGenerator.generate path size
      pure 0
    catch fault =>
      IO.eprintln s!"evoting-keygen: {fault}"
      pure 1
