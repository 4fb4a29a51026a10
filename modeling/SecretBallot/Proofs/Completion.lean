import Mathlib
import SecretBallot.Proofs.Dict
import SecretBallot.Proofs.Group.Products
import SecretBallot.Proofs.Sampling
import SecretBallot.Proof.Statement

namespace SecretBallot

namespace Action

variable {σ τ α β : Type}

/-- Unless the random bytes run out, an action returns a value and reaches a state that are good. -/
def Completes (action : Action σ α) (state : σ) (good : α → σ → Prop) : Prop :=
  match action state with
  | (.ok value, reached) => good value reached
  | (.error failure, _) => failure = .exhausted

theorem completes_of_ok {action : Action σ α} {state reached : σ} {value : α} {good : α → σ → Prop}
    (hrun : action state = (.ok value, reached)) (hgood : good value reached) :
    action.Completes state good := by
  rw [Completes, hrun]
  exact hgood

theorem completes_of_exhausted {action : Action σ α} {state reached : σ} {good : α → σ → Prop}
    (hrun : action state = (.error .exhausted, reached)) : action.Completes state good := by
  rw [Completes, hrun]

theorem completes_pure {value : α} {state : σ} {good : α → σ → Prop} (hgood : good value state) :
    (pure value : Action σ α).Completes state good :=
  hgood

theorem Completes.cases {action : Action σ α} {state : σ} {good : α → σ → Prop}
    (haction : action.Completes state good) :
    (∃ value reached, action state = (.ok value, reached) ∧ good value reached) ∨
      ∃ reached, action state = (.error .exhausted, reached) := by
  rw [Completes] at haction
  rcases hrun : action state with ⟨outcome, reached⟩
  rw [hrun] at haction
  cases outcome with
  | ok value => exact .inl ⟨value, reached, rfl, haction⟩
  | error failure => exact .inr ⟨reached, by rw [show failure = .exhausted from haction]⟩

theorem Completes.of_ok {action : Action σ α} {state reached : σ} {value : α} {good : α → σ → Prop}
    (haction : action.Completes state good) (hrun : action state = (.ok value, reached)) :
    good value reached := by
  rwa [Completes, hrun] at haction

theorem Completes.imp {action : Action σ α} {state : σ} {good better : α → σ → Prop}
    (haction : action.Completes state good)
    (himp : ∀ value reached, good value reached → better value reached) :
    action.Completes state better := by
  obtain ⟨value, reached, hrun, hgood⟩ | ⟨reached, hrun⟩ := haction.cases
  · exact completes_of_ok hrun (himp value reached hgood)
  · exact completes_of_exhausted hrun

/-- What completes with a value returned it. -/
theorem Completes.and_run {action : Action σ α} {state : σ} {good : α → σ → Prop}
    (haction : action.Completes state good) : action.Completes state fun value reached =>
      good value reached ∧ action state = (.ok value, reached) := by
  obtain ⟨value, reached, hrun, hgood⟩ | ⟨reached, hrun⟩ := haction.cases
  · exact completes_of_ok hrun ⟨hgood, hrun⟩
  · exact completes_of_exhausted hrun

theorem Completes.bind {action : Action σ α} {next : α → Action σ β} {state : σ}
    {good : α → σ → Prop} {result : β → σ → Prop} (haction : action.Completes state good)
    (hnext : ∀ value reached, good value reached → (next value).Completes reached result) :
    (action >>= next).Completes state result := by
  obtain ⟨value, reached, hrun, hgood⟩ | ⟨reached, hrun⟩ := haction.cases
  · rw [Completes, bind_of_ok hrun]
    exact hnext value reached hgood
  · exact completes_of_exhausted (by rw [bind_apply, hrun])

/-- An outcome that is known to be a value does not touch the state. -/
theorem Completes.lift_bind {outcome : Outcome α} {value : α} {next : α → Action σ β} {state : σ}
    {result : β → σ → Prop} (houtcome : outcome = .ok value)
    (hnext : (next value).Completes state result) :
    ((liftM outcome : Action σ α) >>= next).Completes state result := by
  rw [Completes, lift_bind_apply, houtcome]
  exact hnext

theorem Completes.liftExcept_bind {x : Except Error α} {value : α} {next : α → Action σ β}
    {state : σ} {result : β → σ → Prop} (hx : x = .ok value)
    (hnext : (next value).Completes state result) :
    ((liftM x : Action σ α) >>= next).Completes state result := by
  rw [Completes, liftExcept_bind_apply, hx]
  exact hnext

theorem Completes.ensure_bind {condition : Prop} [Decidable condition] {error : Error}
    {next : Unit → Action σ β} {state : σ} {result : β → σ → Prop} (hcondition : condition)
    (hnext : (next ()).Completes state result) :
    ((liftM (ensure condition error) : Action σ Unit) >>= next).Completes state result :=
  .liftExcept_bind (ensure_of error hcondition) hnext

theorem Completes.zoom {get : τ → σ} {set : σ → τ → τ} {action : Action σ α} {whole : τ}
    {good : α → τ → Prop}
    (haction : action.Completes (get whole) fun value part => good value (set part whole)) :
    (action.zoom get set).Completes whole good := by
  obtain ⟨value, part, hrun, hgood⟩ | ⟨part, hrun⟩ := haction.cases
  · exact completes_of_ok (by rw [Action.zoom, hrun]) hgood
  · exact completes_of_exhausted (by rw [Action.zoom, hrun])

/-- If the bytes do not run out, there is a value. -/
theorem Completes.exists_ok {action : Action σ α} {state : σ} {good : α → σ → Prop}
    (haction : action.Completes state good) (hleft : (action state).1 ≠ .error .exhausted) :
    ∃ value reached, action state = (.ok value, reached) ∧ good value reached := by
  refine haction.cases.resolve_right ?_
  rintro ⟨reached, hrun⟩
  exact hleft (by rw [hrun])

/-- A list is processed to its end if every element completes, with an invariant of the state. -/
theorem completes_mapM {I : σ → Prop} {R : α → β → Prop} {f : α → Action σ β} {list : List α}
    (hf : ∀ element ∈ list, ∀ state, I state →
      (f element).Completes state fun result reached => R element result ∧ I reached)
    {state : σ} (hstate : I state) :
    (list.mapM f).Completes state fun results reached =>
      List.Forall₂ R list results ∧ I reached := by
  induction list generalizing state with
  | nil =>
    rw [List.mapM_nil]
    exact completes_pure ⟨.nil, hstate⟩
  | cons head tail ih =>
    obtain ⟨hhead, htail⟩ := List.forall_mem_cons.1 hf
    rw [List.mapM_cons]
    refine (hhead state hstate).bind fun first between hfirst => ?_
    refine (ih htail hfirst.2).bind fun others reached hothers => ?_
    exact completes_pure ⟨.cons hfirst.1 hothers.1, hothers.2⟩

end Action

namespace Dict

open SecretBallot.Action

variable {κ ν μ σ : Type} [Ord κ] [Std.TransOrd κ] [Std.LawfulEqOrd κ] [DecidableEq κ]

/-- A map whose values are all replaced keeps its keys. -/
theorem completes_mapM {I : σ → Prop} {R : κ → ν → μ → Prop} {f : κ → ν → Action σ μ}
    {d : Dict κ ν} (hf : ∀ entry ∈ d.entries, ∀ state, I state →
      (f entry.1 entry.2).Completes state fun result reached =>
        R entry.1 entry.2 result ∧ I reached)
    {state : σ} (hstate : I state) :
    (d.mapM f).Completes state fun result reached =>
      List.Forall₂ (fun entry mapped => entry.1 = mapped.1 ∧ R entry.1 entry.2 mapped.2)
        d.entries result.entries ∧ I reached := by
  rw [mapM]
  refine (Action.completes_mapM (R := fun entry mapped => entry.1 = mapped.1 ∧
    R entry.1 entry.2 mapped.2) (fun entry hentry before hbefore => ?_) hstate).bind ?_
  · refine (hf entry hentry before hbefore).bind fun value reached hvalue => ?_
    exact completes_pure ⟨⟨rfl, hvalue.1⟩, hvalue.2⟩
  · rintro mapped reached ⟨hmapped, hreached⟩
    refine completes_pure ⟨?_, hreached⟩
    rwa [entries_ofList hmapped]

end Dict

namespace Draw

open SecretBallot.Action

variable {α : Type}

theorem completes_bytes (count : Nat) (supply : Bytes) :
    (bytes count).Completes supply fun chunk _ => chunk.length = count := by
  rw [Completes, bytes, get_bind_apply]
  by_cases hlength : (supply.take count).length = count
  · rw [if_pos hlength]
    exact hlength
  · rw [if_neg hlength]
    rfl

theorem completes_retry {draw : Draw α} (hdraw : ∀ supply, draw.Completes supply fun _ _ => True)
    (accept : α → Bool) (supply : Bytes) :
    (retry draw accept).Completes supply fun value _ => accept value = true := by
  have htries (tries : Nat) (supply : Bytes) :
      (retryUpTo draw accept tries).Completes supply fun value _ => accept value = true := by
    induction tries generalizing supply with
    | zero => rfl
    | succ tries ih =>
      rw [retryUpTo]
      refine (hdraw supply).bind fun value reached _ => ?_
      by_cases haccept : accept value = true
      · rw [if_pos haccept]
        exact completes_pure haccept
      · rw [if_neg haccept]
        exact ih reached
  rw [retry, Completes, get_bind_apply]
  exact htries _ supply

theorem completes_attempt {bound : Nat} (hbound : bound ≠ 0) (supply : Bytes) :
    (attempt bound).Completes supply fun _ _ => True := by
  refine (completes_bytes _ supply).bind fun chunk rest hlength => ?_
  have hpos : 0 < chunk.length := by
    rw [hlength]
    exact tryLength_pos hbound
  refine .lift_bind (entryAt_eq_ok_iff.2 (List.getElem?_eq_getElem hpos)) ?_
  exact .lift_bind (replaceAt_eq_ok_iff.2 ⟨hpos, rfl⟩) (completes_pure trivial)

theorem completes_exponent (group : Group) (supply : Bytes) :
    (exponent group).Completes supply fun value _ => value < group.q := by
  have hbound : group.q ≠ 0 := group.q_pos.ne'
  rw [exponent, below]
  refine Completes.lift_bind (require_of _ hbound) ?_
  exact (completes_retry (completes_attempt hbound) _ supply).imp fun _ _ haccept =>
    of_decide_eq_true haccept

end Draw

namespace Prover

open SecretBallot.Action

variable {α : Type}

theorem completes_draw {draw : Draw α} {good : α → Prop}
    (hdraw : ∀ supply, draw.Completes supply fun value _ => good value) {prover : Prover}
    (hfresh : prover.transcript = .fresh) : (Prover.draw draw).Completes prover
      fun value reached => good value ∧ reached.transcript = .fresh :=
  Completes.zoom ((hdraw prover.supply).imp fun _ _ hvalue => ⟨hvalue, hfresh⟩)

end Prover

/-- A transcript is fresh again after a challenge. -/
theorem Transcript.challengeFor_apply (hash : Hash) (group : Group) (bytes : Bytes)
    (transcript : Transcript) : challengeFor hash group bytes transcript =
      (.ok (value hash (transcript.absorbed ++ bytes) group.q), .fresh) :=
  rfl

theorem Transcript.challengeFor_fresh (hash : Hash) (group : Group) (bytes : Bytes) :
    challengeFor hash group bytes .fresh = (.ok (value hash bytes group.q), .fresh) :=
  challengeFor_apply hash group bytes .fresh

theorem Prover.challengeFor_apply (hash : Hash) (group : Group) (bytes : Bytes) (prover : Prover) :
    onTranscript (Transcript.challengeFor hash group bytes) prover =
      (.ok (Transcript.value hash (prover.transcript.absorbed ++ bytes) group.q),
        { prover with transcript := .fresh }) := by
  rw [onTranscript, Action.zoom_apply, Transcript.challengeFor_apply]

theorem Prover.completes_challengeFor (hash : Hash) (group : Group) (bytes : Bytes)
    {prover : Prover} (hfresh : prover.transcript = .fresh) :
    (onTranscript (Transcript.challengeFor hash group bytes)).Completes prover
      fun challenge reached =>
        challenge = Transcript.value hash bytes group.q ∧ reached.transcript = .fresh := by
  refine Action.completes_of_ok (challengeFor_apply hash group bytes prover) ⟨?_, rfl⟩
  rw [hfresh]
  rfl

end SecretBallot
