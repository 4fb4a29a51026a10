import Mathlib
import SecretBallot.Proofs.Answered
import SecretBallot.Proofs.Completion

namespace SecretBallot

/-- A state that random bytes are taken from. More of them can be put behind those that are left. -/
class Supplied (σ : Type) where
  feed : σ → Bytes → σ
  feed_feed : ∀ state first second, feed (feed state first) second = feed state (first ++ second)

export Supplied (feed)

instance : Supplied Bytes where
  feed supply more := supply ++ more
  feed_feed := List.append_assoc

theorem feed_bytes (supply more : Bytes) : feed supply more = supply ++ more :=
  rfl

instance : Supplied Prover where
  feed prover more := { prover with supply := prover.supply ++ more }
  feed_feed prover first second := by rw [List.append_assoc]

namespace Action

variable {σ τ α β : Type} [Supplied σ] [Supplied τ]

/-- Whatever bytes there are, an action answers or lacks bytes. More bytes leave an answer as it is,
    and some bytes lead to one. -/
structure Settles (action : Action σ α) : Prop where
  answers : ∀ state, Answered (action state).1 ∨ (action state).1 = .error .exhausted
  steady : ∀ state more, Answered (action state).1 →
    action (feed state more) = ((action state).1, feed (action state).2 more)
  progress : ∀ state, ∃ more, Answered (action (feed state more)).1

namespace Settles

variable {action : Action σ α} {next : α → Action σ β}

/-- What an action does in one state, and in the same state with more bytes. -/
theorem cases (haction : action.Settles) (state : σ) :
    (∃ value reached, action state = (.ok value, reached) ∧
      ∀ more, action (feed state more) = (.ok value, feed reached more)) ∨
    (∃ error reached, action state = (.error (.refused error), reached) ∧
      ∀ more, action (feed state more) = (.error (.refused error), feed reached more)) ∨
    ∃ reached, action state = (.error .exhausted, reached) := by
  have hanswers := haction.answers state
  have hsteady := haction.steady state
  generalize action state = run at hanswers hsteady ⊢
  obtain ⟨outcome, reached⟩ := run
  rcases hanswers with (⟨value, rfl⟩ | ⟨error, rfl⟩) | rfl
  · exact .inl ⟨value, reached, rfl, fun more => hsteady more (answered_ok value)⟩
  · exact .inr (.inl ⟨error, reached, rfl, fun more => hsteady more (answered_refused error)⟩)
  · exact .inr (.inr ⟨reached, rfl⟩)

/-- Only what follows on a value that an action can return has to settle. -/
theorem bind_of_run (haction : action.Settles) (hnext : ∀ value state reached,
    action state = (.ok value, reached) → (next value).Settles) : (action >>= next).Settles where
  answers state := by
    obtain ⟨value, reached, hrun, _⟩ | ⟨error, reached, hrun, _⟩ | ⟨reached, hrun⟩ :=
      haction.cases state
    · rw [bind_of_ok hrun]
      exact (hnext value _ _ hrun).answers reached
    · rw [bind_apply, hrun]
      exact .inl (answered_refused error)
    · rw [bind_apply, hrun]
      exact .inr rfl
  steady state more := by
    obtain ⟨value, reached, hrun, hmore⟩ | ⟨error, reached, hrun, hmore⟩ | ⟨reached, hrun⟩ :=
      haction.cases state
    · rw [bind_of_ok hrun, bind_of_ok (hmore more)]
      exact (hnext value _ _ hrun).steady reached more
    · rw [bind_apply, bind_apply, hrun, hmore]
      exact fun _ => rfl
    · rw [bind_apply, hrun]
      exact fun hanswered => absurd rfl hanswered.ne_exhausted
  progress state := by
    obtain ⟨first, hanswered⟩ := haction.progress state
    obtain ⟨value, reached, hrun, hmore⟩ | ⟨error, reached, hrun, _⟩ | ⟨reached, hrun⟩ :=
      haction.cases (feed state first)
    · obtain ⟨second, hsecond⟩ := (hnext value _ _ hrun).progress reached
      refine ⟨first ++ second, ?_⟩
      rwa [← Supplied.feed_feed, bind_of_ok (hmore second)]
    · refine ⟨first, ?_⟩
      rw [bind_apply, hrun]
      exact answered_refused error
    · rw [hrun] at hanswered
      exact absurd rfl hanswered.ne_exhausted

theorem bind (haction : action.Settles) (hnext : ∀ value, (next value).Settles) :
    (action >>= next).Settles :=
  haction.bind_of_run fun value _ _ _ => hnext value

/-- An action on a part settles on the whole if both draw from the same bytes. -/
theorem zoom {get : τ → σ} {set : σ → τ → τ} (haction : action.Settles)
    (hget : ∀ whole more, get (feed whole more) = feed (get whole) more)
    (hset : ∀ part whole more,
      set (feed part more) (feed whole more) = feed (set part whole) more) :
    (action.zoom get set).Settles where
  answers whole := haction.answers (get whole)
  steady whole more hanswered := by
    rw [zoom_apply] at hanswered
    rw [zoom_apply, zoom_apply, hget, haction.steady _ _ hanswered, hset]
  progress whole := by
    obtain ⟨more, hanswered⟩ := haction.progress (get whole)
    exact ⟨more, by rwa [zoom_apply, hget]⟩

end Settles

theorem settles_of_apply {action : Action σ α} {outcome : Outcome α} {change : σ → σ}
    (houtcome : Answered outcome) (haction : ∀ state, action state = (outcome, change state))
    (hchange : ∀ state more, change (feed state more) = feed (change state) more) :
    action.Settles where
  answers state := .inl (by rwa [haction])
  steady state more _ := by rw [haction, haction, hchange]
  progress state := ⟨[], by rwa [haction]⟩

theorem settles_pure (value : α) : (pure value : Action σ α).Settles :=
  settles_of_apply (answered_ok value) (fun _ => rfl) fun _ _ => rfl

theorem settles_refuse (error : Error) : (refuse error : Action σ α).Settles :=
  settles_of_apply (answered_refused error) (fun _ => rfl) fun _ _ => rfl

/-- Only what follows on the value of an outcome has to settle. -/
theorem settles_lift_bind {outcome : Outcome α} {next : α → Action σ β}
    (houtcome : Answered outcome) (hnext : ∀ value, outcome = .ok value → (next value).Settles) :
    ((liftM outcome : Action σ α) >>= next).Settles := by
  obtain ⟨value, rfl⟩ | ⟨error, rfl⟩ := houtcome
  · exact hnext value rfl
  · exact settles_refuse error

theorem settles_ensure_bind {condition : Prop} [Decidable condition] {error : Error}
    {next : Unit → Action σ β} (hnext : condition → (next ()).Settles) :
    ((liftM (ensure condition error) : Action σ Unit) >>= next).Settles := by
  by_cases hcondition : condition
  · rw [ensure_of error hcondition]
    exact hnext hcondition
  · rw [ensure, if_neg hcondition]
    exact settles_refuse error

theorem settles_mapM {f : α → Action σ β} {list : List α}
    (hf : ∀ element ∈ list, (f element).Settles) : (list.mapM f).Settles := by
  induction list with
  | nil => exact settles_pure []
  | cons head tail ih =>
    obtain ⟨hhead, htail⟩ := List.forall_mem_cons.1 hf
    rw [List.mapM_cons]
    exact hhead.bind fun first => (ih htail).bind fun rest => settles_pure _

theorem Dict.settles_mapM {κ ν μ : Type} [Ord κ] [Std.TransOrd κ] {f : κ → ν → Action σ μ}
    {d : Dict κ ν} (hf : ∀ entry ∈ d.entries, (f entry.1 entry.2).Settles) :
    (d.mapM f).Settles := by
  refine (Action.settles_mapM fun entry hentry => ?_).bind fun mapped => settles_pure _
  exact (hf entry hentry).bind fun value => settles_pure _

end Action

namespace Draw

open SecretBallot.Action

variable {α : Type}

theorem bytes_apply (count : Nat) (supply : Bytes) : bytes count supply =
    if count ≤ supply.length then (.ok (supply.take count), supply.drop count)
    else (.error .exhausted, supply) := by
  rw [bytes, get_bind_apply, List.length_take]
  by_cases hle : count ≤ supply.length
  · rw [if_pos hle, if_pos (Nat.min_eq_left hle)]
    rfl
  · have hne : min count supply.length ≠ count := by omega
    rw [if_neg hle, if_neg hne]
    rfl

theorem length_of_bytes {count : Nat} {chunk supply rest : Bytes}
    (hrun : bytes count supply = (.ok chunk, rest)) : chunk.length = count := by
  rw [bytes_apply] at hrun
  by_cases hle : count ≤ supply.length
  · rw [if_pos hle] at hrun
    cases hrun
    exact List.length_take_of_le hle
  · rw [if_neg hle] at hrun
    cases hrun

theorem settles_bytes (count : Nat) : (bytes count).Settles where
  answers supply := by
    rw [bytes_apply]
    by_cases hle : count ≤ supply.length
    · rw [if_pos hle]
      exact .inl (answered_ok _)
    · rw [if_neg hle]
      exact .inr rfl
  steady supply more := by
    rw [feed_bytes, feed_bytes, bytes_apply, bytes_apply, List.length_append]
    by_cases hle : count ≤ supply.length
    · rw [if_pos hle, if_pos (Nat.le_add_right_of_le hle), List.take_append_of_le_length hle,
        List.drop_append_of_le_length hle]
      exact fun _ => rfl
    · rw [if_neg hle]
      exact fun hanswered => absurd rfl hanswered.ne_exhausted
  progress supply := by
    refine ⟨List.replicate count 0, ?_⟩
    have hle : count ≤ (supply ++ List.replicate count 0).length := by
      rw [List.length_append, List.length_replicate]
      exact Nat.le_add_left _ _
    rw [feed_bytes, bytes_apply, if_pos hle]
    exact answered_ok _

section Retry

variable {draw : Draw α} (hdraw : draw.Settles) (accept : α → Bool)

include hdraw

theorem answers_retryUpTo (tries : Nat) (supply : Bytes) :
    Answered (retryUpTo draw accept tries supply).1 ∨
      (retryUpTo draw accept tries supply).1 = .error .exhausted := by
  induction tries generalizing supply with
  | zero => exact .inr rfl
  | succ tries ih =>
    rw [retryUpTo]
    obtain ⟨value, reached, hrun, _⟩ | ⟨error, reached, hrun, _⟩ | ⟨reached, hrun⟩ :=
      hdraw.cases supply
    · rw [bind_of_ok hrun]
      by_cases haccept : accept value = true
      · rw [if_pos haccept]
        exact .inl (answered_ok value)
      · rw [if_neg haccept]
        exact ih reached
    · rw [bind_apply, hrun]
      exact .inl (answered_refused error)
    · rw [bind_apply, hrun]
      exact .inr rfl

/-- More bytes and more tries leave the value as it is that was accepted. -/
theorem retryUpTo_feed {tries most : Nat} (hle : tries ≤ most) {supply : Bytes}
    (hanswered : Answered (retryUpTo draw accept tries supply).1) (more : Bytes) :
    retryUpTo draw accept most (feed supply more) =
      ((retryUpTo draw accept tries supply).1,
        feed (retryUpTo draw accept tries supply).2 more) := by
  induction tries generalizing most supply with
  | zero => exact absurd rfl hanswered.ne_exhausted
  | succ tries ih =>
    obtain ⟨most, rfl⟩ := Nat.exists_eq_add_of_le' hle
    rw [retryUpTo] at hanswered ⊢
    rw [← Nat.add_assoc, retryUpTo]
    obtain ⟨value, reached, hrun, hmore⟩ | ⟨error, reached, hrun, hmore⟩ | ⟨reached, hrun⟩ :=
      hdraw.cases supply
    · rw [bind_of_ok hrun] at hanswered ⊢
      rw [bind_of_ok (hmore more)]
      by_cases haccept : accept value = true
      · rw [if_pos haccept, if_pos haccept]
        rfl
      · rw [if_neg haccept] at hanswered ⊢
        rw [if_neg haccept]
        exact ih (Nat.le_add_left _ _) hanswered
    · rw [bind_apply, bind_apply, hrun, hmore]
    · rw [bind_apply, hrun] at hanswered
      exact absurd rfl hanswered.ne_exhausted

/-- A draw that is repeated settles if bytes can always be accepted in the end, within no more tries
    than there are bytes. -/
theorem settles_retry (hprogress : ∀ supply : Bytes, ∃ more tries,
      tries ≤ (supply ++ more).length + 1 ∧
        Answered (retryUpTo draw accept tries (supply ++ more)).1) :
    (retry draw accept).Settles where
  answers supply := by
    rw [retry, get_bind_apply]
    exact answers_retryUpTo hdraw accept _ supply
  steady supply more hanswered := by
    have hle : supply.length + 1 ≤ (feed supply more).length + 1 := by
      rw [feed_bytes, List.length_append]
      omega
    rw [retry, get_bind_apply] at hanswered ⊢
    rw [get_bind_apply]
    exact retryUpTo_feed hdraw accept hle hanswered more
  progress supply := by
    obtain ⟨more, tries, hle, hanswered⟩ := hprogress supply
    have hsame := retryUpTo_feed hdraw accept hle hanswered []
    rw [feed_bytes (supply ++ more), List.append_nil] at hsame
    refine ⟨more, ?_⟩
    rw [feed_bytes, retry, get_bind_apply, hsame]
    exact hanswered

end Retry

section Below

variable {bound : Nat} (hbound : bound ≠ 0)

include hbound

/-- There is a first byte to clear the bits of that are too many. -/
theorem settles_attempt : (attempt bound).Settles := by
  refine (settles_bytes _).bind_of_run fun chunk supply rest hrun => ?_
  have hpos : 0 < chunk.length := by
    rw [length_of_bytes hrun]
    exact tryLength_pos hbound
  refine settles_lift_bind (answered_entryAt hpos) fun first _ => ?_
  exact settles_lift_bind (answered_replaceAt hpos _) fun cleared _ => settles_pure _

/-- One more try in front of those that lead to an answer. -/
theorem answered_retryUpTo_append {chunk rest : Bytes} (hlength : chunk.length = tryLength bound)
    {tries : Nat} (hrest : Answered (retryUpTo (attempt bound) (· < bound) tries rest).1) :
    Answered (retryUpTo (attempt bound) (· < bound) (tries + 1) (chunk ++ rest)).1 := by
  rw [retryUpTo_attempt_append hbound hlength]
  split
  · exact answered_ok _
  · exact hrest

/-- Bytes that are zero are accepted. -/
theorem answered_retryUpTo_zero :
    Answered (retryUpTo (attempt bound) (· < bound) 1 (Bytes.ofNatBE (tryLength bound) 0)).1 := by
  have hzero : candidate bound (Bytes.ofNatBE (tryLength bound) 0) = 0 :=
    candidate_ofNatBE (Nat.pos_of_ne_zero hbound)
  have htry := retryUpTo_attempt_append hbound (Bytes.length_ofNatBE (tryLength bound) 0) 0 []
  rw [List.append_nil, hzero, if_pos (Nat.pos_of_ne_zero hbound)] at htry
  rw [htry]
  exact answered_ok 0

/-- The bytes left are filled up to a whole number of tries, and the next ones are zero. -/
theorem exists_accepted (supply : Bytes) : ∃ more tries,
    tries ≤ (supply ++ more).length + 1 ∧
      Answered (retryUpTo (attempt bound) (· < bound) tries (supply ++ more)).1 := by
  have hpos := tryLength_pos hbound
  induction hcount : supply.length using Nat.strong_induction_on generalizing supply with
  | _ count ih =>
    by_cases hle : tryLength bound ≤ supply.length
    · have hlength : (supply.take (tryLength bound)).length = tryLength bound :=
        List.length_take_of_le hle
      have hlt : (supply.drop (tryLength bound)).length < count := by
        rw [List.length_drop]
        omega
      obtain ⟨more, tries, htries, hanswered⟩ := ih _ hlt _ rfl
      refine ⟨more, tries + 1, ?_, ?_⟩
      · rw [List.length_append, List.length_drop] at htries
        rw [List.length_append]
        omega
      · have hwhole := answered_retryUpTo_append hbound hlength hanswered
        rwa [← List.append_assoc, List.take_append_drop] at hwhole
    · let fill : Bytes := List.replicate (tryLength bound - supply.length) 0
      have hlength : (supply ++ fill).length = tryLength bound := by
        rw [List.length_append, List.length_replicate]
        omega
      refine ⟨fill ++ Bytes.ofNatBE (tryLength bound) 0, 2, ?_, ?_⟩
      · rw [← List.append_assoc, List.length_append, hlength, Bytes.length_ofNatBE]
        omega
      · rw [← List.append_assoc]
        exact answered_retryUpTo_append hbound hlength (answered_retryUpTo_zero hbound)

theorem settles_below : (below bound).Settles := by
  refine settles_lift_bind (answered_of_eq_ok (require_of _ hbound)) fun _ _ => ?_
  exact settles_retry (settles_attempt hbound) _ (exists_accepted hbound)

end Below

theorem settles_exponent (group : Group) : (exponent group).Settles :=
  settles_below group.q_pos.ne'

end Draw

namespace Prover

open SecretBallot.Action

variable {α : Type}

theorem settles_draw {draw : Draw α} (hdraw : draw.Settles) : (Prover.draw draw).Settles :=
  hdraw.zoom (fun _ _ => rfl) fun _ _ _ => rfl

theorem settles_onFresh {action : Action Prover α} (haction : action.Settles) :
    (onFresh action).Settles :=
  haction.zoom (fun _ _ => rfl) fun _ _ _ => rfl

/-- A challenge takes no bytes. -/
theorem settles_challengeFor (hash : Hash) (group : Group) (bytes : Bytes) :
    (onTranscript (Transcript.challengeFor hash group bytes)).Settles where
  answers prover := .inl (answered_of_eq_ok (congrArg Prod.fst (challengeFor_apply ..)))
  steady prover more _ := by rw [challengeFor_apply, challengeFor_apply]; rfl
  progress prover := ⟨[], answered_of_eq_ok (congrArg Prod.fst (challengeFor_apply ..))⟩

end Prover

end SecretBallot
