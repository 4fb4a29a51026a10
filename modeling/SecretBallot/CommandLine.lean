import SecretBallot.Ceremony.Size

namespace SecretBallot

namespace CommandLine

/-- What is asked for: a directory, and the size of the ceremony. -/
structure Request where
  directory : String
  authorities : UInt64
  threshold : UInt64
  deriving DecidableEq

/-- Why no ceremony is run: information was asked for, or the arguments are wrong. -/
inductive Stop where
  | information
  | usage
  deriving DecidableEq

/-- The options that take a value. -/
inductive Setting where
  | authorities
  | threshold
  deriving DecidableEq

/-- How often a setting was named, and the values it was given. -/
structure Given where
  occurrences : Nat
  values : List String
  deriving DecidableEq

/-- What has been read so far. -/
structure Parsed where
  directory : Option String
  authorities : Given
  threshold : Given
  /-- The setting whose value may come next. -/
  awaiting : Option Setting
  /-- Whether whatever follows is a directory, however it looks. -/
  plain : Bool
  deriving DecidableEq

namespace Parsed

def start : Parsed :=
  ⟨none, ⟨0, []⟩, ⟨0, []⟩, none, false⟩

def update (parsed : Parsed) (setting : Setting) (f : Given → Given) : Parsed :=
  match setting with
  | .authorities => { parsed with authorities := f parsed.authorities }
  | .threshold => { parsed with threshold := f parsed.threshold }

/-- Notes a setting. Its value is given with it, equals signs in front left out, or may follow as
    the next argument. -/
def note (parsed : Parsed) (setting : Setting) (value : Option (List Char)) : Parsed :=
  let values := value.toList.map fun text => String.ofList (text.dropWhile (· == '='))
  let noted := parsed.update setting fun given =>
    ⟨given.occurrences + 1, given.values ++ values⟩
  { noted with awaiting := if value.isSome then none else some setting }

/-- Takes the value of the setting that was named last. -/
def take (parsed : Parsed) (setting : Setting) (value : String) : Parsed :=
  let taken := parsed.update setting fun given => { given with values := given.values ++ [value] }
  { taken with awaiting := none }

/-- Takes the directory, of which there is one. -/
def positional (parsed : Parsed) (argument : String) : Except Stop Parsed :=
  match parsed.directory with
  | none => .ok { parsed with directory := some argument }
  | some _ => .error .usage

/-- Reads an argument of the form `--name` or `--name=value`, its dashes removed. -/
def long (parsed : Parsed) (argument : List Char) : Except Stop Parsed :=
  let name := argument.takeWhile (· != '=')
  let value := (argument.dropWhile (· != '=')).tail?
  if name = "authorities".toList then .ok (parsed.note .authorities value)
  else if name = "threshold".toList then .ok (parsed.note .threshold value)
  else if name = "help".toList ∨ name = "version".toList then .error .information
  else .error .usage

/-- Reads the letters of an argument of the form `-vn3`, its dash removed: a letter that takes a
    value takes all that follows it. -/
def short (parsed : Parsed) : List Char → Except Stop Parsed
  | [] => .ok { parsed with awaiting := none }
  | letter :: rest =>
    let value := if rest = [] then none else some rest
    if letter = 'n' then .ok (parsed.note .authorities value)
    else if letter = 't' then .ok (parsed.note .threshold value)
    else if letter = 'v' then short parsed rest
    else if letter = 'h' ∨ letter = 'V' then .error .information
    else .error .usage

/-- Reads one more argument. -/
def step (parsed : Parsed) (argument : String) : Except Stop Parsed :=
  if parsed.plain then parsed.positional argument
  else
    match argument.toList, parsed.awaiting with
    | ['-', '-'], _ => .ok { parsed with plain := true }
    | '-' :: '-' :: rest, _ => parsed.long (rest.dropWhile (· == '-'))
    | '-' :: letter :: rest, _ => parsed.short (letter :: rest)
    | _, some setting => .ok (parsed.take setting argument)
    | _, none => parsed.positional argument

end Parsed

/-- The number that decimal digits stand for, a plus sign in front allowed, if it is positive and
    fits in a word. -/
def readCount (text : String) : Option UInt64 :=
  let digits : List Char := match text.toList with
    | '+' :: rest => rest
    | other => other
  let n := digits.foldl (fun n digit => n * 10 + (digit.toNat - '0'.toNat)) 0
  if digits ≠ [] ∧ digits.all Char.isDigit ∧ 0 < n ∧ n < UInt64.size then some (UInt64.ofNat n)
  else none

/-- The value of a setting, which may be named once. Without a value it has its default, if there
    is one. -/
def Given.value (given : Given) (default : Option UInt64) : Except Stop UInt64 :=
  if 1 < given.occurrences then .error .usage
  else
    match given.values, default with
    | [], some count => .ok count
    | [text], _ => (readCount text).elim (.error .usage) .ok
    | _, _ => .error .usage

/-- Reads the arguments. One authority is the default, and without a threshold all authorities
    are needed. -/
def parse (arguments : List String) : Except Stop Request := do
  let parsed ← arguments.foldlM Parsed.step .start
  match parsed.directory with
  | none => throw .usage
  | some directory =>
    let authorities ← parsed.authorities.value (some 1)
    let threshold ← parsed.threshold.value
      (if parsed.threshold.occurrences = 0 then some authorities else none)
    pure ⟨directory, authorities, threshold⟩

/-- What the key generator does with its arguments: it runs a ceremony, or it ends with an exit
    code and perhaps a complaint. -/
inductive Plan where
  | run (directory : String) (size : CeremonySize)
  | exit (code : UInt32) (complaint : Option String)

/-- How the key generator is called. -/
def usage : String :=
  "usage: evoting-keygen [-v]... [-n AUTHORITIES] [-t THRESHOLD] DIR"

def complaint (error : Error) : String :=
  "evoting-keygen: " ++ error.message

def plan (arguments : List String) : Plan :=
  match parse arguments with
  | .error .information => .exit 0 none
  | .error .usage => .exit 1 none
  | .ok request =>
    match CeremonySize.new request.authorities request.threshold with
    | .error error => .exit 1 (some (complaint error))
    | .ok size => .run request.directory size

end CommandLine

end SecretBallot
