import SecretBallot.Error

namespace SecretBallot

/-- A condition on the arguments that an operation takes for granted. -/
inductive Assertion where
  | baseNotReduced
  | notInvertible
  | zeroExponent
  | emptyRange
  | indexOutOfRange (length index : Nat)
  deriving DecidableEq

def Assertion.message : Assertion → String
  | .baseNotReduced => "base is not reduced mod p"
  | .notInvertible => "only non-zero residues mod p are invertible"
  | .zeroExponent => "zero has no inverse mod q"
  | .emptyRange => "empty sampling range"
  | .indexOutOfRange length index =>
    s!"index out of bounds: the len is {length} but the index is {index}"

inductive Failure where
  | refused (error : Error)
  | violated (assertion : Assertion)
  /-- The random bytes supplied do not suffice to finish sampling. -/
  | exhausted
  deriving DecidableEq

def Failure.message : Failure → String
  | .refused error => error.message
  | .violated assertion => assertion.message
  | .exhausted => "random bytes ran out"

abbrev Outcome := Except Failure

/-- An operation on a state of type `σ`, whose changes last also when it fails. -/
abbrev Action (σ : Type) := ExceptT Failure (StateM σ)

instance : MonadLift (Except Error) Outcome :=
  ⟨Except.mapError .refused⟩

/-- Ends an operation with a refusal. -/
def refuse {m : Type → Type} [MonadExceptOf Failure m] {α : Type} (error : Error) : m α :=
  throwThe Failure (.refused error)

/-- Refuses unless the condition holds. -/
def ensure (condition : Prop) [Decidable condition] (error : Error) : Except Error Unit :=
  if condition then .ok () else .error error

/-- Breaks off unless the condition holds. -/
def require (condition : Prop) [Decidable condition] (assertion : Assertion) : Outcome Unit :=
  if condition then .ok () else .error (.violated assertion)

section Indexing

variable {α : Type}

/-- The entry of a list at an index. -/
def entryAt (list : List α) (index : Nat) : Outcome α :=
  if h : index < list.length then .ok list[index]
  else .error (.violated (.indexOutOfRange list.length index))

/-- The list with another entry at an index. -/
def replaceAt (list : List α) (index : Nat) (entry : α) : Outcome (List α) := do
  require (index < list.length) (.indexOutOfRange list.length index)
  pure (list.set index entry)

end Indexing

/-- Runs an operation on a part of a larger state. -/
def Action.zoom {σ τ α : Type} (get : τ → σ) (set : σ → τ → τ) (action : Action σ α) :
    Action τ α :=
  fun whole =>
    let (outcome, part) := action (get whole)
    (outcome, set part whole)

end SecretBallot
