import SecretBallot.Dict
import SecretBallot.Error

namespace SecretBallot

/-- What stands at a location. -/
inductive Node where
  | file (content : Bytes) (mode : Nat)
  | directory
  deriving DecidableEq

/-- The names from the root down. -/
abbrev Location := List String

/-- The bytes of a location written as a path. -/
def Location.textSize (location : Location) : Nat :=
  location.foldl (fun size name => size + 1 + name.utf8ByteSize) 0

/-- The part of a path before its first slash, and the parts after it. -/
def splitPath : List Char → List Char × List (List Char)
  | [] => ([], [])
  | c :: rest =>
    let (part, parts) := splitPath rest
    if c = '/' then ([], part :: parts) else (c :: part, parts)

/-- What lies between the slashes of a path. -/
def pathParts (path : String) : List String :=
  let (part, parts) := splitPath path.toList
  (part :: parts).map String.ofList

/-- A path starts at the root if a slash comes first. -/
def fromRoot (path : String) : Bool :=
  path.toList.head? == some '/'

/-- The bytes that a name may have. -/
def nameLimit : Nat := 255

/-- The bytes that a path may have, the directory it leads from counted. -/
def pathLimit : Nat := 4095

abbrev Storage := Dict Location Node

namespace Storage

/-- What stands at a location. The root is a directory. -/
def node? (storage : Storage) (location : Location) : Option Node :=
  if location = [] then some .directory else storage.get? location

/-- Follows parts of a path. A blank part and `.` stay, `..` goes up, but not above the root. -/
def follow (storage : Storage) (location : Location) :
    List String → Except DeviceFault Location
  | [] => .ok location
  | part :: rest =>
    match storage.node? location with
    | none => .error .noSuchFile
    | some (.file _ _) => .error .notDirectory
    | some .directory =>
      if part = "" ∨ part = "." then storage.follow location rest
      else if part = ".." then storage.follow location.dropLast rest
      else if nameLimit < part.utf8ByteSize then .error .nameTooLong
      else storage.follow (location ++ [part]) rest

/-- Where a path leads from a directory. Something need not stand there. -/
def find (storage : Storage) (directory : Location) (path : String) :
    Except DeviceFault Location :=
  let start := if fromRoot path then [] else directory
  let size := if fromRoot path then path.utf8ByteSize
    else directory.textSize + 1 + path.utf8ByteSize
  if path.toList.contains '\x00' then .error .nulInName
  else if pathLimit < size then .error .nameTooLong
  else storage.follow start (pathParts path)

/-- The content of the file that a path leads to. -/
def content (storage : Storage) (directory : Location) (path : String) :
    Except DeviceFault Bytes := do
  match storage.node? (← storage.find directory path) with
  | none => throw .noSuchFile
  | some .directory => throw .isDirectory
  | some (.file content _) => pure content

end Storage

/-- What changes a storage, and what it has changed is kept if it fails. -/
abbrev Storing := ExceptT Error (StateM Storage)

namespace Storing

/-- Makes the directory that names lead to from a directory, and those on the way to it that
    are missing. -/
def makeDirectory (directory : Location) : List String → Storing Unit
  | [] => pure ()
  | name :: rest => do
    let location := directory ++ [name]
    match (← get).node? location with
    | some .directory => pure ()
    | none => modify (·.insert location .directory)
    | some (.file _ _) =>
      throw (.device (if rest.isEmpty then .fileExists else .notDirectory))
    makeDirectory location rest

/-- Opens a file for writing, its content gone. A new file gets the given permission bits. -/
def create (directory : Location) (path : String) (mode : Nat) : Storing Location := do
  match (← get).find directory path with
  | .error fault => throw (.device fault)
  | .ok location =>
    match (← get).node? location with
    | none => modify (·.insert location (.file [] mode))
    | some (.file _ kept) => modify (·.insert location (.file [] kept))
    | some .directory => throw (.device .isDirectory)
    pure location

/-- Gives an open file its content. -/
def fill (location : Location) (content : Bytes) : Storing Unit :=
  modify (·.modify location fun
    | .file _ mode => .file content mode
    | .directory => .directory)

end Storing

end SecretBallot
