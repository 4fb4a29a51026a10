import Mathlib
import SecretBallot.Proofs.Tally.Run

namespace SecretBallot

namespace Engine

/-- What a call answers. -/
def answer (engine : Engine) (call : Call) : Outcome Answer :=
  (call.run engine).1

/-- Whether a call asks for a report. -/
def Call.isReport : Call → Bool
  | .report _ | .reportWithBound _ _ | .reportFromShares _ => true
  | _ => false

/-- Whether a call closes the engine to ballots. -/
def Call.shuts : Call → Bool
  | .close | .report _ | .reportWithBound _ _ | .reportFromShares _ => true
  | _ => false

theorem Call.shuts_of_isReport {call : Call} (hreport : call.isReport = true) :
    call.shuts = true := by
  cases call <;> first | rfl | cases hreport

/-- The ballot that a call hands in, with the nonce that it names. -/
def Call.ballot? : Call → Option (SealedBallot × Bytes)
  | .record ballot nonce => some (ballot, nonce)
  | .commit event =>
    (Wire.decode event.payload : Except Error SealedBallot).toOption.map (·, event.nonce)
  | _ => none

/-- The nonce of the ballot that a call asks to move, and where it is to go. -/
def target? (engine : Engine) : Call → Option (Bytes × BallotState)
  | .confirm nonce => some (nonce, .confirmed)
  | .challenge nonce => some (nonce, .challenged)
  | .scan event => (engine.nonce? event.ballot).map (·, .confirmed)
  | _ => none

/-- Everything that a call can do to an engine, with what it answers then. -/
inductive Effect (engine : Engine) (call : Call) : Outcome Answer → Engine → Prop where
  | failed (failure : Failure) : Effect engine call (.error failure) engine
  | repeated (move : Bytes × BallotState) (hcall : engine.target? call = some move) :
    Effect engine call (.ok (.moved false)) engine
  | recorded (ballot : SealedBallot) (nonce : Bytes) (hcall : call.ballot? = some (ballot, nonce))
    (hadmits : engine.Admits ballot nonce) :
    Effect engine call (.ok .done) (engine.withBallot ballot nonce)
  | confirmed (ballot : SealedBallot) (nonce : Bytes)
    (hcall : engine.target? call = some (nonce, .confirmed)) (hopened : engine.phase = .opened)
    (hentry : engine.byNonce.get? nonce = some ⟨ballot, .committed⟩) :
    Effect engine call (.ok (.moved true)) (engine.withConfirmed ballot nonce)
  | challenged (ballot : SealedBallot) (nonce : Bytes)
    (hcall : engine.target? call = some (nonce, .challenged)) (hopened : engine.phase = .opened)
    (hentry : engine.byNonce.get? nonce = some ⟨ballot, .committed⟩) :
    Effect engine call (.ok (.moved true)) (engine.move nonce .challenged)
  | shut (answer : Outcome Answer) (phase : Phase) (hcall : call.shuts = true)
    (hphase : phase ≠ .opened) : Effect engine call answer { engine with phase }

section Effects

variable {engine : Engine} {call : Call} {nonce : Bytes}

theorem effect_record {ballot : SealedBallot} (hcall : call.ballot? = some (ballot, nonce)) :
    engine.Effect call ((record ballot nonce engine).1.map fun _ => .done)
      (record ballot nonce engine).2 := by
  rcases record_cases ballot nonce engine with ⟨hadmits, hrun⟩ | ⟨_, failure, hrun⟩
  · rw [hrun]
    exact .recorded ballot nonce hcall hadmits
  · rw [hrun]
    exact .failed failure

theorem effect_confirm (hcall : engine.target? call = some (nonce, .confirmed)) :
    engine.Effect call ((confirm nonce engine).1.map .moved) (confirm nonce engine).2 := by
  rw [confirm_apply]
  by_cases hopened : engine.phase = .opened
  case neg => rw [if_neg hopened]; exact .failed _
  rw [if_pos hopened]
  rcases hentry : engine.byNonce.get? nonce with _ | ⟨ballot, state⟩
  · exact .failed _
  · cases state with
    | committed => exact .confirmed ballot nonce hcall hopened hentry
    | confirmed => exact .repeated _ hcall
    | challenged => exact .failed _

theorem effect_challenge (hcall : engine.target? call = some (nonce, .challenged)) :
    engine.Effect call ((challenge nonce engine).1.map .moved) (challenge nonce engine).2 := by
  rw [challenge_apply]
  by_cases hopened : engine.phase = .opened
  case neg => rw [if_neg hopened]; exact .failed _
  rw [if_pos hopened]
  rcases hentry : engine.byNonce.get? nonce with _ | ⟨ballot, state⟩
  · exact .failed _
  · cases state with
    | committed => exact .challenged ballot nonce hcall hopened hentry
    | confirmed => exact .failed _
    | challenged => exact .repeated _ hcall

end Effects

theorem run_of_attempt {action : Action Engine Report} {engine : Engine} {outcome : Outcome Report}
    (haction : action engine =
      if engine.phase = .reported then (.error (.refused .tallyClosed), engine)
      else engine.attempt outcome) :
    (do pure (.reported (← action)) : Action Engine Answer) engine =
      if engine.phase = .reported then (.error (.refused .tallyClosed), engine)
      else ((engine.attempt outcome).1.map .reported, (engine.attempt outcome).2) := by
  rw [Action.bind_pure_apply, haction]
  by_cases hphase : engine.phase = .reported
  · rw [if_pos hphase, if_pos hphase]
    rfl
  · rw [if_neg hphase, if_neg hphase]

/-- Every call for a report opens the tally in its own way, which does not depend on the phase, and
    is otherwise an attempt like any other. -/
theorem exists_opener {call : Call} (hreport : call.isReport = true) :
    ∃ opener : Engine → Outcome Report,
      (∀ (engine : Engine) (phase : Phase), opener { engine with phase } = opener engine) ∧
      ∀ engine, call.run engine =
        if engine.phase = .reported then (.error (.refused .tallyClosed), engine)
        else ((engine.attempt (opener engine)).1.map .reported,
          (engine.attempt (opener engine)).2) := by
  cases call with
  | report key =>
    refine ⟨fun engine => engine.openWithKey key engine.bound, fun _ _ => rfl, fun engine => ?_⟩
    exact run_of_attempt ((report_apply key engine).trans (reportWithBound_apply key _ engine))
  | reportWithBound key bound =>
    refine ⟨fun engine => engine.openWithKey key bound, fun _ _ => rfl, fun engine => ?_⟩
    exact run_of_attempt (reportWithBound_apply key bound engine)
  | reportFromShares shares =>
    refine ⟨fun engine => engine.openFromShares shares, fun _ _ => rfl, fun engine => ?_⟩
    exact run_of_attempt (reportFromShares_apply shares engine)
  | _ => cases hreport

theorem run_close (engine : Engine) : Call.run .close engine =
    if engine.phase = .reported then (.error (.refused .tallyClosed), engine)
    else (.ok (.closed engine.closedTally), { engine with phase := .closed }) := by
  rw [Call.run, Action.bind_pure_apply, close_apply]
  by_cases hphase : engine.phase = .reported
  · rw [if_pos hphase, if_pos hphase]
    rfl
  · rw [if_neg hphase, if_neg hphase]
    rfl

/-- What a call does and answers is one of the effects. -/
theorem effect (engine : Engine) (call : Call) :
    engine.Effect call (engine.answer call) (engine.after call) := by
  change engine.Effect call (call.run engine).1 (call.run engine).2
  have hreport (hcall : call.isReport = true) :
      engine.Effect call (call.run engine).1 (call.run engine).2 := by
    obtain ⟨opener, _, hrun⟩ := exists_opener hcall
    rw [hrun]
    by_cases hphase : engine.phase = .reported
    · rw [if_pos hphase]
      exact .failed _
    · rw [if_neg hphase]
      cases opener engine with
      | ok report => exact .shut _ .reported (Call.shuts_of_isReport hcall) Phase.noConfusion
      | error failure => exact .shut _ .closed (Call.shuts_of_isReport hcall) Phase.noConfusion
  cases call with
  | record ballot nonce =>
    rw [Call.run, Action.bind_pure_apply]
    exact effect_record rfl
  | confirm nonce =>
    rw [Call.run, Action.bind_pure_apply]
    exact effect_confirm rfl
  | challenge nonce =>
    rw [Call.run, Action.bind_pure_apply]
    exact effect_challenge rfl
  | commit event =>
    rw [Call.run, Action.bind_pure_apply]
    rcases handleCommit_cases event engine with ⟨failure, hrun⟩ | ⟨ballot, hdecode, _, hrun⟩
    · rw [hrun]
      exact .failed failure
    · rw [hrun]
      exact effect_record (by rw [Call.ballot?, hdecode]; rfl)
  | scan event =>
    rw [Call.run, Action.bind_pure_apply, handleScan_apply]
    cases hnonce : engine.byId.get? event.ballot with
    | none => exact .failed _
    | some nonce => exact effect_confirm (by rw [target?, nonce?, hnonce]; rfl)
  | close =>
    rw [run_close]
    by_cases hphase : engine.phase = .reported
    · rw [if_pos hphase]
      exact .failed _
    · rw [if_neg hphase]
      exact .shut _ .closed rfl Phase.noConfusion
  | report => exact hreport rfl
  | reportWithBound => exact hreport rfl
  | reportFromShares => exact hreport rfl

/-- Everything that a call can do to an engine. -/
inductive Change (engine : Engine) : Engine → Prop where
  | none : Change engine engine
  | record (ballot : SealedBallot) (nonce : Bytes) (hadmits : engine.Admits ballot nonce) :
    Change engine (engine.withBallot ballot nonce)
  | confirm (ballot : SealedBallot) (nonce : Bytes) (hopened : engine.phase = .opened)
    (hentry : engine.byNonce.get? nonce = some ⟨ballot, .committed⟩) :
    Change engine (engine.withConfirmed ballot nonce)
  | challenge (ballot : SealedBallot) (nonce : Bytes) (hopened : engine.phase = .opened)
    (hentry : engine.byNonce.get? nonce = some ⟨ballot, .committed⟩) :
    Change engine (engine.move nonce .challenged)
  | phase (phase : Phase) : Change engine { engine with phase }

/-- A call does nothing else to an engine than a change of the list. -/
theorem change_after (engine : Engine) (call : Call) : engine.Change (engine.after call) := by
  have heffect := engine.effect call
  generalize engine.answer call = answer at heffect
  generalize engine.after call = changed at heffect ⊢
  cases heffect with
  | failed => exact .none
  | repeated => exact .none
  | recorded ballot nonce _ hadmits => exact .record ballot nonce hadmits
  | confirmed ballot nonce _ hopened hentry => exact .confirm ballot nonce hopened hentry
  | challenged ballot nonce _ hopened hentry => exact .challenge ballot nonce hopened hentry
  | shut _ phase => exact .phase phase

/-- What holds at the start and is kept by every change holds after every run. -/
theorem afterAll_of_change (holds : Engine → Prop)
    (hchange : ∀ engine changed, holds engine → engine.Change changed → holds changed)
    {start : Engine} (hstart : holds start) (calls : List Call) : holds (start.afterAll calls) := by
  induction calls generalizing start with
  | nil => exact hstart
  | cons call rest ih => exact ih (hchange start _ hstart (change_after start call))

section Closed

variable {engine : Engine} (hclosed : engine.phase ≠ .opened)

include hclosed

theorem record_of_closed (ballot : SealedBallot) (nonce : Bytes) :
    Engine.record ballot nonce engine = (.error (.refused .tallyClosed), engine) := by
  rw [Engine.record, Action.bind_apply, requireOpen_apply, if_neg hclosed]

theorem confirm_of_closed (nonce : Bytes) :
    Engine.confirm nonce engine = (.error (.refused .tallyClosed), engine) := by
  rw [confirm_apply, if_neg hclosed]

theorem challenge_of_closed (nonce : Bytes) :
    Engine.challenge nonce engine = (.error (.refused .tallyClosed), engine) := by
  rw [challenge_apply, if_neg hclosed]

/-- Once an engine is closed a call changes its phase only, and does not open it again. -/
theorem after_of_closed (call : Call) : ∃ phase, phase ≠ .opened ∧
    engine.after call = { engine with phase } := by
  have heffect := engine.effect call
  generalize engine.answer call = answer at heffect
  generalize engine.after call = changed at heffect ⊢
  cases heffect with
  | failed => exact ⟨engine.phase, hclosed, rfl⟩
  | repeated => exact ⟨engine.phase, hclosed, rfl⟩
  | recorded _ _ _ hadmits => exact absurd hadmits.opened hclosed
  | confirmed _ _ _ hopened => exact absurd hopened hclosed
  | challenged _ _ _ hopened => exact absurd hopened hclosed
  | shut _ phase _ hphase => exact ⟨phase, hphase, rfl⟩

theorem afterAll_of_closed (calls : List Call) : ∃ phase, phase ≠ .opened ∧
    engine.afterAll calls = { engine with phase } := by
  induction calls generalizing engine with
  | nil => exact ⟨engine.phase, hclosed, rfl⟩
  | cons call rest ih =>
    obtain ⟨between, hbetween, hcall⟩ := after_of_closed hclosed call
    have hnext : ({ engine with phase := between } : Engine).phase ≠ .opened := hbetween
    obtain ⟨phase, hphase, hrest⟩ := ih hnext
    refine ⟨phase, hphase, ?_⟩
    rw [afterAll, List.foldl_cons, hcall]
    exact hrest

end Closed

end Engine

end SecretBallot
