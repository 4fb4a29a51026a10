import SecretBallot.Bytes
import SecretBallot.Tally.BallotState

namespace SecretBallot

/-- Why a modulus and a generator do not form a safe-prime group. -/
inductive GroupFault where
  | evenOrSmall (p : Nat)
  | notSafePrime (p : Nat)
  | generatorRange (g : Nat)
  | generatorOrder (g : Nat)
  deriving DecidableEq

/-- Why a list of races does not define an election. -/
inductive ConfigurationFault where
  | noRaces
  | noCandidates (race : String)
  | tooManySelections (race : String) (limit candidates : Nat)
  | raceTwice (race : String)
  deriving DecidableEq

/-- The ciphertext that a partial decryption is for: one total, or one vote of a challenged
    ballot. -/
inductive Slot where
  | total (race candidate : String)
  | vote (ballot race candidate : String)
  deriving DecidableEq

/-- Why a share of a key, or of a decryption, is refused. -/
inductive ShareFault where
  | indexZero
  | indexNotBelowOrder (index : Nat)
  | secretRange (index : Nat)
  | shareNotReduced (index : Nat)
  | publicShareOutside (index : Nat)
  | otherElection (index : Nat)
  | otherThreshold (index : Nat)
  | partialIndex (index : Nat)
  | partialOutside (index : Nat)
  | misdelivered (recipient authority : Nat)
  | againstCommitment (dealer : Nat)
  | notCommitted (index : Nat)
  | slotMissing (index : Nat) (slot : Slot)
  deriving DecidableEq

/-- Two lists that must have the same length. -/
inductive Counted where
  | coefficients
  | authorities
  | ciphertexts
  deriving DecidableEq

/-- A value that is needed but has not been supplied. -/
inductive Missing where
  | authorities
  | recipient
  | publicShares
  | privateShares
  | partials
  | committedShares
  | receivedShares
  deriving DecidableEq

/-- Why a public key or a key file is refused, the record inside a file apart. -/
inductive KeyFault where
  | f
  | h
  | noMatch
  | recordTooLarge
  | truncated
  | declaredLength (length : Nat)
  | trailing
  deriving DecidableEq

/-- Why bytes are not the encoding that was asked for. -/
inductive WireFault where
  | noHeader
  | wrongTag (expected found : UInt8)
  | wrongVersion (version : UInt8)
  | truncated (needed offset left : Nat)
  | integerWidth (width : Nat)
  | countTooLarge (count : Nat)
  | notText
  | trailing (count : Nat)
  | candidateTwice (race : String)
  | ciphertextOutside
  deriving DecidableEq

/-- The first proof on a ballot that does not verify. -/
inductive ProofFault where
  | membership (race candidate : String)
  | sum (race : String)
  deriving DecidableEq

/-- Why a selection cannot be encrypted or proved. -/
inductive SelectionFault where
  | outsideDomain (plaintext : UInt64) (domain : List UInt64)
  | notAnOpening
  | notTheTotal (total : UInt64)
  | raceTwice (race : String)
  | wrongCount (race : String) (selected expected : Nat)
  deriving DecidableEq

/-- How a ballot differs from the election, its nonce, its witness or its announcement. -/
inductive BallotFault where
  | unknownRace (race : String)
  | raceTwice (race : String)
  | wrongLimit (race : String) (declared allowed : Nat)
  | wrongCandidates (race : String)
  | racesMissing (covered races : Nat)
  | witnessSize
  | noWitness (race candidate : String)
  | wrongWitness (race candidate : String)
  | wrongNonce (ballot : String) (bound given : Bytes)
  | wrongName (announced carried : String)
  deriving DecidableEq

/-- How a ballot is referred to. -/
inductive BallotRef where
  | nonce (nonce : Bytes)
  | id (ballot : String)
  deriving DecidableEq

/-- What a storage device reports. -/
inductive DeviceFault where
  | noSuchFile
  | fileExists
  | notDirectory
  | isDirectory
  | nameTooLong
  | nulInName
  | broken
  /-- Anything else, by the text that the device gives. -/
  | other (text : String)
  deriving DecidableEq

/-- Every cause of a refusal. -/
inductive Error where
  | invalidGroup (fault : GroupFault)
  | invalidParameters (authorities threshold index : Nat)
  | invalidConfiguration (fault : ConfigurationFault)
  | invalidShare (fault : ShareFault)
  | duplicateAuthority (index : Nat)
  | notEnoughShares (available needed : Nat)
  | countMismatch (counted : Counted) (expected found : Nat)
  | uninitialized (missing : Missing)
  | badKey (fault : KeyFault)
  /-- The record inside a key file is refused. -/
  | badKeyRecord (cause : Error)
  | malformed (fault : WireFault)
  | invalidProof (fault : ProofFault)
  | invalidSelection (fault : SelectionFault)
  | searchExhausted (bound : Nat)
  | ballotMismatch (fault : BallotFault)
  | duplicateBallot (ballot : BallotRef)
  | unknownBallot (ballot : BallotRef)
  | invalidTransition (ballot : String) (old new : BallotState)
  | tallyClosed
  | device (fault : DeviceFault)
  deriving DecidableEq

/-- A byte as `0x` and two hexadecimal digits. -/
def hexByte (byte : UInt8) : String :=
  "0x" ++ Bytes.hex [byte]

def GroupFault.message : GroupFault → String
  | .evenOrSmall p => s!"p = {p} is not an odd prime above 3"
  | .notSafePrime p => s!"p = {p} is not a safe prime"
  | .generatorRange g => s!"g = {g} is outside (1, p)"
  | .generatorOrder g => s!"g = {g} does not generate the order-q subgroup"

def ConfigurationFault.message : ConfigurationFault → String
  | .noRaces => "no races defined"
  | .noCandidates race => s!"race {race} has no candidates"
  | .tooManySelections race limit candidates =>
    s!"race {race} allows {limit} selections among {candidates} candidates"
  | .raceTwice race => s!"race {race} defined twice"

def Slot.text : Slot → String
  | .total race candidate => s!"{race}/{candidate}"
  | .vote ballot race candidate => s!"{ballot}/{race}/{candidate}"

def ShareFault.message : ShareFault → String
  | .indexZero => "authority index 0 is reserved for the secret"
  | .indexNotBelowOrder index => s!"authority index {index} is not below q"
  | .secretRange index => s!"authority {index}: secret outside [1, q)"
  | .shareNotReduced index => s!"authority {index}: share not reduced mod q"
  | .publicShareOutside index => s!"authority {index}: public share outside the subgroup"
  | .otherElection index => s!"authority {index}: share belongs to a different election"
  | .otherThreshold index => s!"authority {index}: partial decryption for a different threshold"
  | .partialIndex index => s!"authority index {index} outside [1, q)"
  | .partialOutside index => s!"authority {index}: partial decryption outside the subgroup"
  | .misdelivered recipient authority =>
    s!"share for authority {recipient} delivered to authority {authority}"
  | .againstCommitment dealer => s!"share from authority {dealer} does not match its commitment"
  | .notCommitted index => s!"authority {index} published a public share it did not commit to"
  | .slotMissing index slot =>
    s!"authority {index} sent no partial decryption of " ++ slot.text

/-- The two lists compared, the one that sets the length first. -/
def Counted.labels : Counted → String × String
  | .coefficients => ("coefficients", "commitments")
  | .authorities => ("authorities", "public shares")
  | .ciphertexts => ("ciphertexts", "randomness values")

def Missing.name : Missing → String
  | .authorities => "authorities"
  | .recipient => "authority for share recipient"
  | .publicShares => "authority public shares"
  | .privateShares => "private key shares"
  | .partials => "partial decryptions"
  | .committedShares => "authority.committed_shares"
  | .receivedShares => "authority.received_shares"

def KeyFault.message : KeyFault → String
  | .f => "f is not a generator of the order-q subgroup"
  | .h => "h is not a generator of the order-q subgroup"
  | .noMatch => "private key does not match the election public key"
  | .recordTooLarge => "record too large"
  | .truncated => "truncated key file"
  | .declaredLength length => s!"declared length {length} is too large"
  | .trailing => "trailing bytes after the key record"

def WireFault.message : WireFault → String
  | .noHeader => "missing record header"
  | .wrongTag expected found =>
    "expected record tag " ++ hexByte expected ++ ", found " ++ hexByte found
  | .wrongVersion version => s!"unsupported version {version}"
  | .truncated needed offset left =>
    s!"truncated: needed {needed} bytes at offset {offset}, {left} left"
  | .integerWidth width => s!"integer field of {width} bytes"
  | .countTooLarge count => s!"count {count} exceeds the remaining input"
  | .notText => "field is not UTF-8"
  | .trailing count => s!"{count} trailing bytes"
  | .candidateTwice race => s!"race {race} lists a candidate twice"
  | .ciphertextOutside => "ciphertext outside the order-q subgroup"

def ProofFault.message : ProofFault → String
  | .membership race candidate => s!"membership proof for {race}/{candidate}"
  | .sum race => s!"sum proof for race {race}"

/-- Numbers in brackets, a comma and a blank between them. -/
def listText (values : List UInt64) : String :=
  "[" ++ ", ".intercalate (values.map toString) ++ "]"

def SelectionFault.message : SelectionFault → String
  | .outsideDomain plaintext domain => s!"{plaintext} is outside " ++ listText domain
  | .notAnOpening => "ciphertext does not open to the claimed plaintext"
  | .notTheTotal total => s!"ciphertexts do not sum to the declared total {total}"
  | .raceTwice race => s!"race {race} appears twice"
  | .wrongCount race selected expected =>
    s!"race {race} has {selected} selections, expected {expected}"

def BallotFault.message : BallotFault → String
  | .unknownRace race => s!"unknown race {race}"
  | .raceTwice race => s!"race {race} appears twice"
  | .wrongLimit race declared allowed =>
    s!"race {race} declares {declared} selections, election allows {allowed}"
  | .wrongCandidates race => s!"race {race} does not list the election's candidates"
  | .racesMissing covered races => s!"ballot covers {covered} of {races} races"
  | .witnessSize => "witness does not cover the ballot"
  | .noWitness race candidate => s!"no witness for {race}/{candidate}"
  | .wrongWitness race candidate => s!"witness does not open {race}/{candidate}"
  | .wrongNonce ballot bound given =>
    s!"ballot {ballot} is bound to nonce " ++ bound.hex ++ ", not " ++ given.hex
  | .wrongName announced carried =>
    s!"event names ballot {announced}, payload carries {carried}"

def DeviceFault.message : DeviceFault → String
  | .noSuchFile => "No such file or directory (os error 2)"
  | .fileExists => "File exists (os error 17)"
  | .notDirectory => "Not a directory (os error 20)"
  | .isDirectory => "Is a directory (os error 21)"
  | .nameTooLong => "File name too long (os error 36)"
  | .nulInName => "file name contained an unexpected NUL byte"
  | .broken => "device failure"
  | .other text => text

/-- The text of a refusal. -/
def Error.message : Error → String
  | .invalidGroup fault => "invalid group parameters: " ++ fault.message
  | .invalidParameters authorities threshold index =>
    s!"invalid parameter set: n = {authorities}, t = {threshold}, index = {index}"
  | .invalidConfiguration fault => "invalid election configuration: " ++ fault.message
  | .invalidShare fault => "invalid key share: " ++ fault.message
  | .duplicateAuthority index => s!"authority {index} supplied more than once"
  | .notEnoughShares available needed =>
    s!"not enough key shares: have {available}, need {needed}"
  | .countMismatch counted expected found =>
    let (expectedLabel, foundLabel) := counted.labels
    s!"count mismatch: {expected} {expectedLabel} vs {found} {foundLabel}"
  | .uninitialized missing => "uninitialized value: " ++ missing.name
  | .badKey fault => "bad key: " ++ fault.message
  | .badKeyRecord cause => "bad key: " ++ cause.message
  | .malformed fault => "malformed encoding: " ++ fault.message
  | .invalidProof fault => "invalid proof: " ++ fault.message
  | .invalidSelection fault => "invalid selection: " ++ fault.message
  | .searchExhausted bound => s!"no plaintext in 0..={bound} matches the ciphertext"
  | .ballotMismatch fault => "ballot does not match the election: " ++ fault.message
  | .duplicateBallot (.nonce nonce) => "ballot nonce " ++ nonce.hex ++ " already recorded"
  | .duplicateBallot (.id ballot) => s!"ballot {ballot} already recorded"
  | .unknownBallot (.nonce nonce) => "no committed ballot for " ++ nonce.hex
  | .unknownBallot (.id ballot) => s!"no committed ballot for {ballot}"
  | .invalidTransition ballot old new =>
    s!"ballot {ballot} cannot move from " ++ old.name ++ " to " ++ new.name
  | .tallyClosed => "the tally report has already been generated"
  | .device fault => fault.message

end SecretBallot
