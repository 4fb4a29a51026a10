import Mathlib
import SecretBallot.Ballot.Seal
import SecretBallot.Proofs.Completion
import SecretBallot.Proofs.Supply

namespace SecretBallot

namespace Action

variable {σ τ α β : Type} {supply : σ → Bytes} {others : τ → Bytes}

/-- Of the bytes that a state holds, an action leaves the last ones. -/
structure Consumes (supply : σ → Bytes) (action : Action σ α) : Prop where
  suffix : ∀ state, supply (action state).2 <:+ supply state

/-- An outcome that does not depend on the state takes no bytes. -/
theorem consumes_of_apply {action : Action σ α} (outcome : Outcome α)
    (haction : ∀ state, action state = (outcome, state)) : action.Consumes supply where
  suffix state := by rw [haction]

theorem consumes_pure (value : α) : (pure value : Action σ α).Consumes supply :=
  consumes_of_apply (.ok value) fun _ => rfl

theorem consumes_refuse (error : Error) : (refuse error : Action σ α).Consumes supply :=
  consumes_of_apply (.error (.refused error)) fun _ => rfl

theorem consumes_lift (outcome : Outcome α) :
    (liftM outcome : Action σ α).Consumes supply :=
  consumes_of_apply outcome fun _ => rfl

theorem consumes_liftExcept (x : Except Error α) : (liftM x : Action σ α).Consumes supply :=
  consumes_of_apply (liftM x) fun _ => rfl

theorem Consumes.bind {action : Action σ α} {next : α → Action σ β}
    (haction : action.Consumes supply) (hnext : ∀ value, (next value).Consumes supply) :
    (action >>= next).Consumes supply where
  suffix state := by
    have hfirst := haction.suffix state
    rw [bind_apply]
    rcases hrun : action state with ⟨outcome, reached⟩
    rw [hrun] at hfirst
    cases outcome with
    | ok value => exact ((hnext value).suffix reached).trans hfirst
    | error failure => exact hfirst

/-- An action on a part takes the bytes of the whole if they are those of the part. -/
theorem Consumes.zoom {get : τ → σ} {set : σ → τ → τ} {action : Action σ α}
    (haction : action.Consumes supply) (hget : ∀ whole, supply (get whole) = others whole)
    (hset : ∀ part whole, others (set part whole) = supply part) :
    (action.zoom get set).Consumes others where
  suffix whole := by
    rw [zoom_apply, hset, ← hget]
    exact haction.suffix (get whole)

theorem consumes_mapM {f : α → Action σ β} (hf : ∀ element, (f element).Consumes supply)
    (list : List α) : (list.mapM f).Consumes supply := by
  induction list with
  | nil => exact consumes_pure []
  | cons head tail ih =>
    rw [List.mapM_cons]
    exact (hf head).bind fun first => ih.bind fun rest => consumes_pure _

theorem Dict.consumes_mapM {κ ν μ : Type} [Ord κ] [Std.TransOrd κ] {f : κ → ν → Action σ μ}
    (hf : ∀ key value, (f key value).Consumes supply) (d : Dict κ ν) :
    (d.mapM f).Consumes supply := by
  refine (Action.consumes_mapM (fun entry => ?_) d.entries).bind fun mapped => consumes_pure _
  exact (hf entry.1 entry.2).bind fun value => consumes_pure _

/-- What completes with the last bytes left. -/
theorem Completes.and_consumes {action : Action σ α} {state : σ} {good : α → σ → Prop}
    (haction : action.Completes state good) (hconsumes : action.Consumes supply) :
    action.Completes state fun value reached =>
      good value reached ∧ supply reached <:+ supply state := by
  refine haction.and_run.imp fun value reached hreached => ⟨hreached.1, ?_⟩
  have hsuffix := hconsumes.suffix state
  rwa [hreached.2] at hsuffix

end Action

namespace Draw

open SecretBallot.Action

variable {α : Type}

theorem consumes_bytes (count : Nat) : (bytes count).Consumes id where
  suffix supply := by
    rw [bytes_apply]
    split
    · exact List.drop_suffix _ _
    · exact List.suffix_rfl

theorem consumes_retry {draw : Draw α} (hdraw : draw.Consumes id) (accept : α → Bool) :
    (retry draw accept).Consumes id where
  suffix supply := by
    have htries (tries : Nat) : (retryUpTo draw accept tries).Consumes id := by
      induction tries with
      | zero => exact consumes_of_apply (.error .exhausted) fun _ => rfl
      | succ tries ih =>
        refine hdraw.bind fun value => ?_
        split
        · exact consumes_pure value
        · exact ih
    rw [retry, get_bind_apply]
    exact (htries _).suffix supply

theorem consumes_exponent (group : Group) : (exponent group).Consumes id := by
  refine (consumes_lift _).bind fun _ => consumes_retry ?_ _
  refine (consumes_bytes _).bind fun _ => (consumes_lift _).bind fun _ => ?_
  exact (consumes_lift _).bind fun _ => consumes_pure _

end Draw

namespace Prover

open SecretBallot.Action

variable {α : Type}

theorem consumes_draw {draw : Draw α} (hdraw : draw.Consumes id) :
    (Prover.draw draw).Consumes supply :=
  hdraw.zoom (fun _ => rfl) fun _ _ => rfl

theorem consumes_challengeFor (hash : Hash) (group : Group) (bytes : Bytes) :
    (onTranscript (Transcript.challengeFor hash group bytes)).Consumes supply where
  suffix prover := by rw [challengeFor_apply]

end Prover

open SecretBallot.Action

theorem MembershipProof.consumes_drawBranches (group : Group) (real count : Nat) :
    (drawBranches group real count).Consumes id := by
  refine consumes_mapM (fun i => ?_) _
  split
  · exact consumes_pure _
  · refine (Draw.consumes_exponent group).bind fun challenge => ?_
    exact (Draw.consumes_exponent group).bind fun response => consumes_pure _

theorem MembershipProof.consumes_proveInDomain (hash : Hash) (key : PublicKey)
    (ciphertext : Ciphertext) (domain : List UInt64) (m : UInt64) (r : Nat) (context : Bytes) :
    (proveInDomain hash key ciphertext domain m r context).Consumes Prover.supply := by
  rw [proveInDomain]
  cases domain.findIdx? (· == m) with
  | none => exact consumes_refuse _
  | some real =>
    refine (consumes_lift _).bind fun opened => (consumes_liftExcept _).bind fun _ => ?_
    refine (Prover.consumes_draw (Draw.consumes_exponent key.group)).bind fun w => ?_
    refine (Prover.consumes_draw (consumes_drawBranches ..)).bind fun branches => ?_
    refine (consumes_lift _).bind fun _ => (consumes_lift _).bind fun commitments => ?_
    exact (Prover.consumes_challengeFor ..).bind fun challenge => consumes_pure _

theorem SumProof.consumes_prove (hash : Hash) (key : PublicKey) (ciphertexts : List Ciphertext)
    (total : UInt64) (randomness : List Nat) (context : Bytes) :
    (prove hash key ciphertexts total randomness context).Consumes Prover.supply := by
  refine (consumes_liftExcept _).bind fun _ => (consumes_lift _).bind fun opened => ?_
  refine (consumes_liftExcept _).bind fun _ => ?_
  refine (Prover.consumes_draw (Draw.consumes_exponent key.group)).bind fun w => ?_
  refine (consumes_lift _).bind fun keyPower => ?_
  exact (Prover.consumes_challengeFor ..).bind fun challenge => consumes_pure _

theorem consumes_sealRace (key : PublicKey) (name : String) (limit : UInt64)
    (openings : Dict String Opening) (nonce : Bytes) :
    (sealRace key name limit openings nonce).Consumes Prover.supply := by
  refine (Dict.consumes_mapM (fun candidate opening => ?_) openings).bind fun votes => ?_
  · refine (consumes_lift _).bind fun ciphertext => ?_
    exact (MembershipProof.consumes_proveInDomain ..).bind fun proof => consumes_pure _
  · exact (SumProof.consumes_prove ..).bind fun sumProof => consumes_pure _

end SecretBallot
