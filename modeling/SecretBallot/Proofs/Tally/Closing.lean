import Mathlib
import SecretBallot.Proofs.Tally.Answer

namespace SecretBallot

namespace Engine

/-- The report that an answer hands out. -/
def reportOf? : Outcome Answer → Option Report
  | .ok (.reported report) => some report
  | _ => none

/-- The reports that a run hands out. -/
def reports (engine : Engine) (calls : List Call) : List Report :=
  (engine.trace calls).filterMap fun answered => reportOf? answered.2

theorem reports_cons (engine : Engine) (call : Call) (later : List Call) :
    engine.reports (call :: later) =
      (reportOf? (engine.answer call)).toList ++ (engine.after call).reports later := by
  rw [reports, trace, List.filterMap_cons, reports]
  cases reportOf? (engine.answer call) <;> rfl

section Shutting

variable {engine : Engine} {call : Call} (hshuts : call.shuts = true)

include hshuts

/-- A call that closes is `close` or asks for a report. -/
theorem eq_close_or_isReport : call = .close ∨ call.isReport = true := by
  cases call with
  | close => exact .inl rfl
  | report => exact .inr rfl
  | reportWithBound => exact .inr rfl
  | reportFromShares => exact .inr rfl
  | _ => cases hshuts

/-- Whether the engine was closed before makes no difference to a call that closes it. -/
theorem run_of_phase {phase : Phase} (hphase : phase ≠ .reported)
    (hengine : engine.phase ≠ .reported) : call.run { engine with phase } = call.run engine := by
  rcases eq_close_or_isReport hshuts with rfl | hreport
  · rw [run_close, run_close, if_neg hphase, if_neg hengine]
    rfl
  · obtain ⟨opener, hopener, hrun⟩ := exists_opener hreport
    rw [hrun, hrun, if_neg hphase, if_neg hengine, hopener]
    cases opener engine <;> rfl

theorem run_of_reported (hreported : engine.phase = .reported) :
    call.run engine = (.error (.refused .tallyClosed), engine) := by
  rcases eq_close_or_isReport hshuts with rfl | hreport
  · rw [run_close, if_pos hreported]
  · obtain ⟨opener, _, hrun⟩ := exists_opener hreport
    rw [hrun, if_pos hreported]

/-- A call that closes does so also when it fails, and marks the engine as reported exactly if it
    hands out the report. -/
theorem phase_after (hengine : engine.phase ≠ .reported) : (engine.after call).phase =
    if (reportOf? (engine.answer call)).isSome then .reported else .closed := by
  rw [after, answer]
  rcases eq_close_or_isReport hshuts with rfl | hreport
  · rw [run_close, if_neg hengine]
    rfl
  · obtain ⟨opener, _, hrun⟩ := exists_opener hreport
    rw [hrun, if_neg hengine]
    cases opener engine <;> rfl

theorem phase_after_ne_opened : (engine.after call).phase ≠ .opened := by
  by_cases hengine : engine.phase = .reported
  · rw [after, run_of_reported hshuts hengine, hengine]
    exact Phase.noConfusion
  · rw [phase_after hshuts hengine]
    split <;> exact Phase.noConfusion

end Shutting

/-- A call about a ballot hands out no report. -/
theorem reportOf?_of_not_shuts {engine : Engine} {call : Call} (hshuts : call.shuts = false) :
    reportOf? (engine.answer call) = none := by
  have heffect := engine.effect call
  generalize engine.answer call = answer at heffect ⊢
  generalize engine.after call = changed at heffect
  cases heffect with
  | shut answer phase hcall => cases hshuts.symm.trans hcall
  | _ => rfl

section Closed

variable {engine : Engine} {call : Call} (hclosed : engine.phase ≠ .opened)

include hclosed

/-- A closed engine refuses every call about a ballot. -/
theorem answer_of_closed (hshuts : call.shuts = false) :
    ∃ error, engine.answer call = .error (.refused error) := by
  cases call with
  | record ballot nonce =>
    refine ⟨.tallyClosed, ?_⟩
    rw [answer, Call.run, Action.bind_pure_apply, record_of_closed hclosed]
    rfl
  | confirm nonce =>
    refine ⟨.tallyClosed, ?_⟩
    rw [answer, Call.run, Action.bind_pure_apply, confirm_of_closed hclosed]
    rfl
  | challenge nonce =>
    refine ⟨.tallyClosed, ?_⟩
    rw [answer, Call.run, Action.bind_pure_apply, challenge_of_closed hclosed]
    rfl
  | commit event =>
    rw [answer, Call.run, Action.bind_pure_apply, handleCommit, Action.liftExcept_bind_apply]
    rcases hdecode : (Wire.decode event.payload : Except Error SealedBallot) with error | ballot
    · exact ⟨error, rfl⟩
    · dsimp only
      rw [Action.ensure_bind_apply]
      by_cases hid : ballot.id = event.ballot
      · exact ⟨.tallyClosed, by rw [if_pos hid, record_of_closed hclosed]; rfl⟩
      · exact ⟨.ballotMismatch (.wrongName event.ballot ballot.id), by rw [if_neg hid]; rfl⟩
  | scan event =>
    rw [answer, Call.run, Action.bind_pure_apply, handleScan_apply]
    cases engine.byId.get? event.ballot with
    | none => exact ⟨.unknownBallot (.id event.ballot), rfl⟩
    | some nonce =>
      dsimp only
      exact ⟨.tallyClosed, by rw [confirm_of_closed hclosed]; rfl⟩
  | _ => cases hshuts

/-- A failed attempt to report leaves a closed engine as it was. -/
theorem after_of_failed {failure : Failure} (hreport : call.isReport = true)
    (hfailed : engine.answer call = .error failure) : engine.after call = engine := by
  obtain ⟨opener, _, hrun⟩ := exists_opener hreport
  rw [answer, hrun] at hfailed
  rw [after, hrun]
  by_cases hreported : engine.phase = .reported
  · rw [if_pos hreported]
  have hphase : engine.phase = .closed := by
    cases hphase : engine.phase with
    | opened => exact absurd hphase hclosed
    | closed => rfl
    | reported => exact absurd hphase hreported
  rw [if_neg hreported] at hfailed ⊢
  cases hopen : opener engine with
  | ok report => rw [hopen] at hfailed; cases hfailed
  | error reason =>
    rw [attempt, ← hphase]

end Closed

/-- What comes after a failed attempt to report is answered as if the attempt had not been made.
    Only calls about ballots can tell that it has closed the engine. -/
theorem answer_of_failed {engine : Engine} {attempt : Call} {failure : Failure}
    (hreport : attempt.isReport = true) (hfailed : engine.answer attempt = .error failure)
    {further : List Call}
    (hfurther : engine.phase ≠ .opened ∨ ∀ call ∈ further, call.shuts = true) {next : Call}
    (hnext : next.shuts = true) :
    ((engine.after attempt).afterAll further).answer next =
      (engine.afterAll further).answer next := by
  by_cases hclosed : engine.phase = .opened
  case neg => rw [after_of_failed hclosed hreport hfailed]
  have hengine : engine.phase ≠ .reported := by rw [hclosed]; exact Phase.noConfusion
  have hshuts := Call.shuts_of_isReport hreport
  obtain ⟨phase, hafter⟩ := exists_after_eq hshuts engine
  have hphase : phase ≠ .reported := by
    have hsome := phase_after hshuts hengine
    rw [hafter, hfailed] at hsome
    rw [show phase = .closed from hsome]
    exact Phase.noConfusion
  rw [hafter]
  cases further with
  | nil => exact congrArg Prod.fst (run_of_phase hnext hphase hengine)
  | cons call rest =>
    have hcall : call.shuts = true :=
      hfurther.resolve_left (not_not.2 hclosed) call List.mem_cons_self
    have hsame : ({ engine with phase } : Engine).after call = engine.after call :=
      congrArg Prod.snd (run_of_phase hcall hphase hengine)
    rw [afterAll_cons, hsame, afterAll_cons]

/-- A tally that a call hands out is the engine's. -/
theorem closedTally_of_answer {engine : Engine} {call : Call} {tally : ClosedTally}
    (hanswer : engine.answer call = .ok (.closed tally)) : tally = engine.closedTally := by
  cases hshuts : call.shuts with
  | false =>
    have heffect := engine.effect call
    rw [hanswer] at heffect
    generalize engine.after call = changed at heffect
    cases heffect with
    | shut _ _ hcall => cases hshuts.symm.trans hcall
  | true =>
    by_cases hreported : engine.phase = .reported
    · rw [answer, run_of_reported hshuts hreported] at hanswer
      cases hanswer
    rcases eq_close_or_isReport hshuts with rfl | hreport
    · rw [answer, run_close, if_neg hreported] at hanswer
      cases hanswer
      rfl
    · obtain ⟨opener, _, hrun⟩ := exists_opener hreport
      rw [answer, hrun, if_neg hreported] at hanswer
      cases hopen : opener engine with
      | ok report => rw [hopen] at hanswer; cases hanswer
      | error failure => rw [hopen] at hanswer; cases hanswer

/-- Whether an engine has reported, as a count of the reports that it has handed out. -/
def reportCount (engine : Engine) : Nat :=
  if engine.phase = .reported then 1 else 0

theorem reportCount_le_one (engine : Engine) : engine.reportCount ≤ 1 := by
  rw [reportCount]
  split <;> omega

/-- A call hands out a report exactly if it marks the engine as reported. -/
theorem reportCount_after (engine : Engine) (call : Call) : (engine.after call).reportCount =
    (reportOf? (engine.answer call)).toList.length + engine.reportCount := by
  cases hshuts : call.shuts with
  | false =>
    rw [reportOf?_of_not_shuts hshuts, reportCount, phase_after_of_not_shuts hshuts, reportCount]
    simp
  | true =>
    by_cases hreported : engine.phase = .reported
    · rw [after, answer, run_of_reported hshuts hreported]
      simp [reportOf?]
    · rw [reportCount, phase_after hshuts hreported, reportCount, if_neg hreported]
      cases reportOf? (engine.answer call) <;> rfl

/-- Over a whole run an engine hands out the reports that it is then known to have handed out. -/
theorem reportCount_afterAll (engine : Engine) (calls : List Call) :
    (engine.afterAll calls).reportCount = (engine.reports calls).length + engine.reportCount := by
  induction calls generalizing engine with
  | nil => exact (Nat.zero_add _).symm
  | cons call later ih =>
    rw [afterAll_cons, ih, reportCount_after, reports_cons, List.length_append]
    omega

/-- An engine has reported exactly if its run has handed out a report. -/
theorem reports_eq_nil_iff (election : Election) (bound : Nat) (calls : List Call) :
    (new election bound).reports calls = [] ↔
      ((new election bound).afterAll calls).phase ≠ .reported := by
  have hcount := reportCount_afterAll (new election bound) calls
  have hnew : (new election bound).reportCount = 0 := rfl
  rw [hnew, Nat.add_zero, reportCount] at hcount
  rw [← List.length_eq_zero_iff, ← hcount]
  split <;> simp [*]

/-- From the first call on that closes an engine or asks it for a report, whether that call
    succeeds or not, the engine stays as it was apart from its phase and refuses every call about a
    ballot. Every close that succeeds hands out the same tally. A failed attempt to report makes no
    difference to what comes after it: closing and reporting are answered as by the engine that was
    closed at first, until a report is handed out, which happens once at most and ends both. -/
theorem closing_is_final (election : Election) (bound : Nat) (before : List Call) {closing : Call}
    (hshuts : closing.shuts = true) (later : List Call) :
    let start := (new election bound).afterAll before
    let engine := start.afterAll (closing :: later)
    let handedOut := (new election bound).reports (before ++ closing :: later)
    engine.phase ≠ .opened ∧ engine = { start with phase := engine.phase } ∧
    (∀ call, call.shuts = false → ∃ error, engine.answer call = .error (.refused error)) ∧
    (∀ tally, start.answer closing = .ok (.closed tally) → tally = start.closedTally) ∧
    (∀ call tally, engine.answer call = .ok (.closed tally) → tally = start.closedTally) ∧
    (∀ attempt, attempt.isReport = true → ∀ failure,
      (engine.answer attempt = .error failure → ∀ further next, next.shuts = true →
        ((engine.after attempt).afterAll further).answer next =
          (engine.afterAll further).answer next) ∧
      (start.answer attempt = .error failure → ∀ further,
        (∀ call ∈ further, call.shuts = true) → ∀ next, next.shuts = true →
          ((start.after attempt).afterAll further).answer next =
            (start.afterAll further).answer next)) ∧
    handedOut.length ≤ 1 ∧
    ∀ next, next.shuts = true → engine.answer next =
      if handedOut = [] then start.answer next else .error (.refused .tallyClosed) := by
  intro start engine handedOut
  have hstopped : (start.after closing).phase ≠ .opened := phase_after_ne_opened hshuts
  obtain ⟨first, hfirst⟩ := exists_after_eq hshuts start
  obtain ⟨phase, hphase, hafterAll⟩ := afterAll_of_closed hstopped later
  have hengine : engine = { start with phase } := by
    refine (afterAll_cons start closing later).trans ?_
    rw [hafterAll, hfirst]
  have hclosed : engine.phase ≠ .opened := by rw [hengine]; exact hphase
  have hreports : handedOut = [] ↔ engine.phase ≠ .reported := by
    rw [show engine = (new election bound).afterAll (before ++ closing :: later) from
      (afterAll_append _ before _).symm]
    exact reports_eq_nil_iff election bound _
  refine ⟨hclosed, by rw [hengine], fun call hcall => answer_of_closed hclosed hcall,
    fun tally hanswer => closedTally_of_answer hanswer, fun call tally hanswer => ?_,
    fun attempt hreport failure => ⟨?_, ?_⟩, ?_, fun next hnext => ?_⟩
  · rw [closedTally_of_answer hanswer, hengine]
    rfl
  · exact fun hfailed further next hnext =>
      answer_of_failed hreport hfailed (.inl hclosed) hnext
  · exact fun hfailed further hfurther next hnext =>
      answer_of_failed hreport hfailed (.inr hfurther) hnext
  · have hcount := reportCount_afterAll (new election bound) (before ++ closing :: later)
    have hle := reportCount_le_one ((new election bound).afterAll (before ++ closing :: later))
    exact (Nat.le_add_right _ _).trans (hcount ▸ hle)
  · by_cases hreported : engine.phase = .reported
    · rw [if_neg (mt hreports.1 (not_not.2 hreported)), answer, run_of_reported hnext hreported]
    · have hstart : start.phase ≠ .reported := by
        intro hstart
        have hcount := reportCount_afterAll start (closing :: later)
        rw [reportCount, reportCount, if_neg hreported, if_pos hstart] at hcount
        omega
      rw [if_pos (hreports.2 hreported), hengine]
      rw [hengine] at hreported
      exact congrArg Prod.fst (run_of_phase hnext hreported hstart)

/-- A report with a key that does not fit closes the engine, and a ballot that was confirmed cannot
    be challenged any more. The right key then reports once. -/
theorem closing_is_final_small :
    let fresh := new smallElection 5
    let start := fresh.afterAll smallCalls
    let wrong : Call := .report ⟨Group.small, 5⟩
    let right : Call := .report ⟨Group.small, 4⟩
    let engine := start.afterAll [wrong, .challenge [7]]
    wrong.shuts = true ∧ start.answer wrong = .error (.refused (.badKey .noMatch)) ∧
      (∃ error, engine.answer (.challenge [7]) = .error (.refused error)) ∧
      engine.answer .close = .ok (.closed start.closedTally) ∧
      engine.answer right = start.answer right ∧
      start.answer right = .ok (.reported
        ⟨Dict.ofList [("mayor", Dict.ofList [("ann", 1), ("ben", 0)])],
          Dict.ofList [("test", testPlain)]⟩) ∧
      (fresh.reports (smallCalls ++ [wrong, .challenge [7], right])).length = 1 ∧
      (start.afterAll [wrong, .challenge [7], right]).answer .close =
        .error (.refused .tallyClosed) := by
  intro fresh start wrong right engine
  have hstart : start = smallEngine 5 := afterAll_smallCalls 5
  have hshuts : wrong.shuts = true := rfl
  have hnone : fresh.reports (smallCalls ++ [wrong, .challenge [7]]) = [] := by
    rw [reports_eq_nil_iff, afterAll_append, afterAll_smallCalls]
    decide +kernel
  have hone : fresh.reports (smallCalls ++ [wrong, .challenge [7], right]) ≠ [] := by
    rw [Ne, reports_eq_nil_iff, afterAll_append, afterAll_smallCalls]
    decide +kernel
  have hwrong : start.answer wrong = .error (.refused (.badKey .noMatch)) := by
    rw [hstart]
    rfl
  have hreport : (report ⟨Group.small, 4⟩ start).1 =
      .ok ⟨Dict.ofList [("mayor", Dict.ofList [("ann", 1), ("ben", 0)])],
        Dict.ofList [("test", testPlain)]⟩ := by
    rw [hstart]
    decide +kernel
  have hright : start.answer right = .ok (.reported
      ⟨Dict.ofList [("mayor", Dict.ofList [("ann", 1), ("ben", 0)])],
        Dict.ofList [("test", testPlain)]⟩) := by
    rw [answer, Call.run, Action.bind_pure_apply, hreport]
    rfl
  have hclose : start.answer .close = .ok (.closed start.closedTally) := by
    rw [hstart]
    rfl
  obtain ⟨_, _, hrefused, _, _, _, _, hretry⟩ :=
    closing_is_final smallElection 5 smallCalls hshuts [.challenge [7]]
  obtain ⟨_, _, _, _, _, _, hlength, hended⟩ :=
    closing_is_final smallElection 5 smallCalls hshuts [.challenge [7], right]
  exact ⟨hshuts, hwrong, hrefused _ rfl, ((hretry .close rfl).trans (if_pos hnone)).trans hclose,
    (hretry right rfl).trans (if_pos hnone), hright,
    Nat.le_antisymm hlength (List.length_pos_iff.2 hone), (hended .close rfl).trans (if_neg hone)⟩

end Engine

end SecretBallot
