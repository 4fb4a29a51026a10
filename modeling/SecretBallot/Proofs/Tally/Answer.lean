import Mathlib
import SecretBallot.Proofs.Tally.Report

namespace SecretBallot

namespace Engine

/-- The calls of a run in order, each with what it answers. -/
def trace (engine : Engine) : List Call → List (Call × Outcome Answer)
  | [] => []
  | call :: later => (call, engine.answer call) :: (engine.after call).trace later

theorem shuts_of_ballot? {call : Call} {entry : SealedBallot × Bytes}
    (hcall : call.ballot? = some entry) : call.shuts = false := by
  cases call <;> first | rfl | cases hcall

theorem shuts_of_target? {engine : Engine} {call : Call} {move : Bytes × BallotState}
    (hcall : engine.target? call = some move) : call.shuts = false := by
  cases call <;> first | rfl | cases hcall

/-- A ballot that is moved can be seen to have moved. -/
theorem byNonce_move_ne {engine : Engine} {ballot : SealedBallot} {nonce : Bytes}
    {state : BallotState} (hentry : engine.byNonce.get? nonce = some ⟨ballot, .committed⟩)
    (hstate : .committed ≠ state) : (engine.move nonce state).byNonce ≠ engine.byNonce := by
  intro hsame
  have hget : (engine.move nonce state).byNonce.get? nonce = some ⟨ballot, state⟩ := by
    rw [move, Dict.get?_modify, hentry, Option.map_some, if_pos rfl]
  rw [hsame, hentry, Option.some.injEq, Entry.mk.injEq] at hget
  exact hstate hget.2

theorem after_eq_iff {engine : Engine} {call : Call} (hshuts : call.shuts = false) :
    engine.after call = engine ↔
      (∃ failure, engine.answer call = .error failure) ∨
        engine.answer call = .ok (.moved false) := by
  have heffect := engine.effect call
  generalize engine.answer call = answer at heffect ⊢
  generalize engine.after call = changed at heffect ⊢
  cases heffect with
  | failed failure => exact iff_of_true rfl (.inl ⟨failure, rfl⟩)
  | repeated => exact iff_of_true rfl (.inr rfl)
  | recorded ballot nonce _ hadmits =>
    refine iff_of_false (fun hsame => ?_) (by simp)
    have hget : (engine.withBallot ballot nonce).byNonce.get? nonce =
        some ⟨ballot, .committed⟩ := by
      rw [withBallot, Dict.get?_insert, if_pos rfl]
    rw [hsame, hadmits.new_nonce] at hget
    cases hget
  | confirmed ballot nonce _ _ hentry =>
    refine iff_of_false (fun hsame => ?_) (by simp)
    have hbyNonce : (engine.withConfirmed ballot nonce).byNonce = engine.byNonce := by rw [hsame]
    exact byNonce_move_ne hentry (by decide) hbyNonce
  | challenged ballot nonce _ _ hentry =>
    refine iff_of_false (fun hsame => ?_) (by simp)
    exact byNonce_move_ne hentry (by decide) (congrArg byNonce hsame)
  | shut answer phase hcall => cases hshuts.symm.trans hcall

theorem exists_after_eq {call : Call} (hshuts : call.shuts = true) (engine : Engine) :
    ∃ phase, engine.after call = { engine with phase } := by
  have heffect := engine.effect call
  generalize engine.answer call = answer at heffect
  generalize engine.after call = changed at heffect ⊢
  cases heffect with
  | failed => exact ⟨engine.phase, rfl⟩
  | repeated => exact ⟨engine.phase, rfl⟩
  | recorded ballot nonce hcall => cases hshuts.symm.trans (shuts_of_ballot? hcall)
  | confirmed ballot nonce hcall => cases hshuts.symm.trans (shuts_of_target? hcall)
  | challenged ballot nonce hcall => cases hshuts.symm.trans (shuts_of_target? hcall)
  | shut answer phase => exact ⟨phase, rfl⟩

/-- A call about a ballot leaves the phase as it is. -/
theorem phase_after_of_not_shuts {engine : Engine} {call : Call} (hshuts : call.shuts = false) :
    (engine.after call).phase = engine.phase := by
  have heffect := engine.effect call
  generalize engine.answer call = answer at heffect
  generalize engine.after call = changed at heffect ⊢
  cases heffect with
  | shut answer phase hcall => cases hshuts.symm.trans hcall
  | _ => rfl

/-- A call about a ballot leaves an engine as it was exactly if it fails or finds the ballot moved
    already, and a call that closes or reports leaves everything but the phase as it was. -/
theorem failure_leaves_no_trace (engine : Engine) (call : Call) :
    (call.shuts = false → (engine.after call = engine ↔
      (∃ failure, engine.answer call = .error failure) ∨
        engine.answer call = .ok (.moved false))) ∧
    (call.shuts = true → ∃ phase, engine.after call = { engine with phase }) :=
  ⟨after_eq_iff, fun hshuts => exists_after_eq hshuts engine⟩

/-- A confirmed ballot can be confirmed again without effect, a challenge of it is refused without
    effect, and a key that does not fit only closes the engine. -/
theorem failure_leaves_no_trace_small :
    let engine := (new smallElection 5).afterAll smallCalls
    let wrong : Call := .report ⟨Group.small, 5⟩
    Call.shuts (.confirm [7]) = false ∧ engine.answer (.confirm [7]) = .ok (.moved false) ∧
      engine.after (.confirm [7]) = engine ∧
      Call.shuts (.challenge [7]) = false ∧ engine.answer (.challenge [7]) =
        .error (.refused (.invalidTransition "ballot" .confirmed .challenged)) ∧
      engine.after (.challenge [7]) = engine ∧
      wrong.shuts = true ∧ ∃ phase, engine.after wrong = { engine with phase } := by
  intro engine wrong
  have hengine : engine = smallEngine 5 := afterAll_smallCalls 5
  have hrepeated : engine.answer (.confirm [7]) = .ok (.moved false) := by
    rw [hengine]
    rfl
  have hrefused : engine.answer (.challenge [7]) =
      .error (.refused (.invalidTransition "ballot" .confirmed .challenged)) := by
    rw [hengine]
    rfl
  obtain ⟨hconfirm, _⟩ := failure_leaves_no_trace engine (.confirm [7])
  obtain ⟨hchallenge, _⟩ := failure_leaves_no_trace engine (.challenge [7])
  obtain ⟨_, hwrong⟩ := failure_leaves_no_trace engine wrong
  exact ⟨rfl, hrepeated, (hconfirm rfl).2 (.inr hrepeated), rfl, hrefused,
    (hchallenge rfl).2 (.inl ⟨_, hrefused⟩), rfl, hwrong rfl⟩

end Engine

end SecretBallot
