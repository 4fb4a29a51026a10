import Mathlib
import SecretBallot.Dict
import SecretBallot.Proof.Statement
import SecretBallot.Proofs.Outcome

namespace SecretBallot

section Outcomes

variable {α β : Type}

/-- An outcome is a value or a refusal. -/
def Answered (outcome : Outcome α) : Prop :=
  (∃ value, outcome = .ok value) ∨ ∃ error, outcome = .error (.refused error)

theorem answered_ok (value : α) : Answered (.ok value) :=
  .inl ⟨value, rfl⟩

theorem answered_refused (error : Error) : Answered (.error (.refused error) : Outcome α) :=
  .inr ⟨error, rfl⟩

theorem answered_of_eq_ok {outcome : Outcome α} {value : α} (houtcome : outcome = .ok value) :
    Answered outcome :=
  .inl ⟨value, houtcome⟩

theorem answered_entryAt {list : List α} {index : Nat} (hindex : index < list.length) :
    Answered (entryAt list index) :=
  answered_of_eq_ok (entryAt_eq_ok_iff.2 (List.getElem?_eq_getElem hindex))

theorem answered_replaceAt {list : List α} {index : Nat} (hindex : index < list.length)
    (entry : α) : Answered (replaceAt list index entry) :=
  answered_of_eq_ok (replaceAt_eq_ok_iff.2 ⟨hindex, rfl⟩)

/-- Where nothing can break but what is checked, there is an answer. -/
theorem answered_lift (x : Except Error α) : Answered (liftM x : Outcome α) := by
  cases x with
  | error error => exact answered_refused error
  | ok value => exact answered_ok value

theorem Answered.ne_exhausted {outcome : Outcome α} (houtcome : Answered outcome) :
    outcome ≠ .error .exhausted := by
  obtain ⟨value, rfl⟩ | ⟨error, rfl⟩ := houtcome <;> simp

theorem Answered.bind {outcome : Outcome α} {next : α → Outcome β} (houtcome : Answered outcome)
    (hnext : ∀ value, outcome = .ok value → Answered (next value)) :
    Answered (outcome >>= next) := by
  obtain ⟨value, rfl⟩ | ⟨error, rfl⟩ := houtcome
  · exact hnext value rfl
  · exact answered_refused error

/-- A check, and what is done once it has passed. -/
theorem answered_ensure_bind {condition : Prop} [Decidable condition] {error : Error}
    {next : Unit → Outcome β} (hnext : condition → Answered (next ())) :
    Answered ((liftM (ensure condition error) : Outcome Unit) >>= next) :=
  (answered_lift _).bind fun _ hchecked =>
    hnext (ensure_eq_ok_iff.1 (lift_eq_ok_iff.1 hchecked))

theorem answered_mapM {f : α → Outcome β} {list : List α}
    (hf : ∀ element ∈ list, Answered (f element)) : Answered (list.mapM f) := by
  induction list with
  | nil => exact answered_ok []
  | cons head tail ih =>
    obtain ⟨hhead, htail⟩ := List.forall_mem_cons.1 hf
    rw [List.mapM_cons]
    exact hhead.bind fun first _ => (ih htail).bind fun rest _ => answered_ok _

theorem answered_forM {f : α → Outcome Unit} {list : List α}
    (hf : ∀ element ∈ list, Answered (f element)) : Answered (list.forM f) := by
  induction list with
  | nil => exact answered_ok ()
  | cons head tail ih =>
    obtain ⟨hhead, htail⟩ := List.forall_mem_cons.1 hf
    exact hhead.bind fun _ _ => ih htail

theorem Dict.answered_mapM {κ ν μ : Type} [Ord κ] [Std.TransOrd κ] {f : κ → ν → Outcome μ}
    {d : Dict κ ν} (hf : ∀ entry ∈ d.entries, Answered (f entry.1 entry.2)) :
    Answered (d.mapM f) := by
  refine (SecretBallot.answered_mapM fun entry hentry => ?_).bind fun mapped _ => answered_ok _
  exact (hf entry hentry).bind fun value _ => answered_ok _

end Outcomes

namespace Action

variable {σ α β : Type}

/-- An action answers in every state. -/
def Answers (action : Action σ α) : Prop :=
  ∀ state, Answered (action state).1

theorem answers_pure (value : α) : (pure value : Action σ α).Answers :=
  fun _ => answered_ok value

theorem answers_refuse (error : Error) : (refuse error : Action σ α).Answers :=
  fun _ => answered_refused error

theorem answers_get : (get : Action σ σ).Answers :=
  answered_ok

theorem answers_set (state : σ) : (set state : Action σ PUnit).Answers :=
  fun _ => answered_ok ()

theorem answers_modify (change : σ → σ) : (modify change : Action σ PUnit).Answers :=
  fun _ => answered_ok ()

theorem answers_lift {outcome : Outcome α} (houtcome : Answered outcome) :
    (liftM outcome : Action σ α).Answers :=
  fun _ => houtcome

theorem answers_liftExcept (x : Except Error α) : (liftM x : Action σ α).Answers :=
  fun _ => answered_lift x

theorem answers_ensure_bind {condition : Prop} [Decidable condition] {error : Error}
    {next : Unit → Action σ β} (hnext : condition → (next ()).Answers) :
    ((liftM (ensure condition error) : Action σ Unit) >>= next).Answers := by
  intro state
  rw [ensure_bind_apply]
  split
  · next hchecked => exact hnext hchecked state
  · exact answered_refused error

theorem Answers.bind {action : Action σ α} {next : α → Action σ β} (haction : action.Answers)
    (hnext : ∀ value, (next value).Answers) : (action >>= next).Answers := by
  intro state
  have hanswered := haction state
  rw [bind_apply]
  generalize action state = run at hanswered ⊢
  obtain ⟨outcome, reached⟩ := run
  obtain ⟨value, rfl⟩ | ⟨error, rfl⟩ := hanswered
  · exact hnext value reached
  · exact answered_refused error

end Action

theorem Transcript.answers_challengeFor (hash : Hash) (group : Group) (bytes : Bytes) :
    (challengeFor hash group bytes).Answers :=
  fun _ => answered_ok _

end SecretBallot
