import Mathlib
import SecretBallot.Proofs.Proof.Binding

namespace SecretBallot

/-- A plaintext is a value of the domain, and with its randomness it opens the ciphertext. -/
structure MembershipProof.IsWitness (key : PublicKey) (ciphertext : Ciphertext)
    (domain : List UInt64) (m : UInt64) (r : Nat) : Prop where
  mem : m ∈ domain
  encrypts : Ciphertext.encrypt key m.toNat r = .ok ciphertext

namespace MembershipProof

variable (hash : Hash) {key : PublicKey} {ciphertext : Ciphertext} {domain : List UInt64}
  {m : UInt64} {r : Nat}

/-- Without a witness a prover refuses, and it has not touched anything by then. -/
theorem proveInDomain_eq_error (hnot : ¬ IsWitness key ciphertext domain m r) (context : Bytes)
    (prover : Prover) : ∃ reason, proveInDomain hash key ciphertext domain m r context prover =
      (.error (.refused (.invalidSelection reason)), prover) := by
  rw [proveInDomain]
  cases hreal : domain.findIdx? (· == m) with
  | none => exact ⟨.outsideDomain m domain, rfl⟩
  | some real =>
    obtain ⟨hlt, hvalue, _⟩ := List.findIdx?_eq_some_iff_getElem.1 hreal
    have hmem : m ∈ domain := eq_of_beq hvalue ▸ List.getElem_mem hlt
    obtain ⟨opened, hopened⟩ := Ciphertext.exists_encrypt key m.toNat r
    have hne : opened ≠ ciphertext := by
      rintro rfl
      exact hnot ⟨hmem, hopened⟩
    refine ⟨.notAnOpening, ?_⟩
    dsimp only
    rw [hopened, Action.lift_bind_apply]
    dsimp only
    rw [Action.ensure_bind_apply, if_neg hne]

end MembershipProof

namespace ProofCall

/-- A call on a fresh transcript leaves a fresh one, whether it accepts, rejects or fails. -/
theorem transcript_run (hash : Hash) (call : ProofCall) (supply : Bytes) :
    (call.run hash ⟨supply, .fresh⟩).2.transcript = .fresh := by
  rw [run_eq, Action.bind_apply, Prover.draw, Action.zoom_apply]
  rcases call.firstMove supply with ⟨outcome, rest⟩
  rcases outcome with failure | _ | move
  · rfl
  · rfl
  · dsimp only
    rw [finish, Action.bind_of_ok (Prover.challengeFor_apply hash call.key.group _ _)]
    rfl

/-- What calls hand back or fail with that follow one another on one prover. -/
def runAll (hash : Hash) : List ProofCall → Prover → List (Outcome Answer) × Prover
  | [], prover => ([], prover)
  | call :: calls, prover =>
    let first := call.run hash prover
    let others := runAll hash calls first.2
    (first.1 :: others.1, others.2)

/-- The same, but each of the calls has a fresh transcript of its own. -/
def runApart (hash : Hash) : List ProofCall → Bytes → List (Outcome Answer) × Bytes
  | [], supply => ([], supply)
  | call :: calls, supply =>
    let first := Prover.onFresh (call.run hash) supply
    let others := runApart hash calls first.2
    (first.1 :: others.1, others.2)

theorem runAll_fresh (hash : Hash) (calls : List ProofCall) (supply : Bytes) :
    runAll hash calls ⟨supply, .fresh⟩ =
      ((runApart hash calls supply).1, ⟨(runApart hash calls supply).2, .fresh⟩) := by
  induction calls generalizing supply with
  | nil => rfl
  | cons call calls ih =>
    have hfirst : call.run hash ⟨supply, .fresh⟩ =
        ((Prover.onFresh (call.run hash) supply).1,
          ⟨(Prover.onFresh (call.run hash) supply).2, .fresh⟩) := by
      have hfresh := transcript_run hash call supply
      rw [Prover.onFresh, Action.zoom_apply]
      generalize call.run hash ⟨supply, .fresh⟩ = first at hfresh ⊢
      obtain ⟨outcome, rest, transcript⟩ := first
      obtain rfl : transcript = .fresh := hfresh
      rfl
    rw [runAll, runApart, hfirst, ih]

end ProofCall

/-- A membership proof is made, as long as random bytes are left, exactly of a plaintext in the
    domain that opens the ciphertext; any other is refused with the prover as it was. What is made
    verifies. Any calls of provers and verifiers, successful or not, leave a fresh transcript fresh
    and do on a shared one what they do on one of their own. -/
theorem MembershipProof.complete_for_any_domain (hash : Hash) :
    (∀ (key : PublicKey) (ciphertext : Ciphertext) (domain : List UInt64) (m : UInt64) (r : Nat)
      (context supply : Bytes),
      let run := proveInDomain hash key ciphertext domain m r context ⟨supply, .fresh⟩
      (run.1 ≠ .error .exhausted →
        ((∃ proof, run.1 = .ok proof) ↔ IsWitness key ciphertext domain m r)) ∧
      (¬ IsWitness key ciphertext domain m r →
        ∃ reason, run = (.error (.refused (.invalidSelection reason)), ⟨supply, .fresh⟩)) ∧
      ∀ proof, run.1 = .ok proof →
        Transcript.onFresh (verifyInDomain hash key ciphertext domain proof context) = .ok true) ∧
    (∀ (call : ProofCall) (supply : Bytes),
      (call.run hash ⟨supply, .fresh⟩).2.transcript = .fresh) ∧
    ∀ (calls : List ProofCall) (supply : Bytes), ProofCall.runAll hash calls ⟨supply, .fresh⟩ =
      ((ProofCall.runApart hash calls supply).1,
        ⟨(ProofCall.runApart hash calls supply).2, .fresh⟩) := by
  refine ⟨fun key ciphertext domain m r context supply => ?_, ProofCall.transcript_run hash,
    ProofCall.runAll_fresh hash⟩
  intro run
  have hwitness : (∃ proof, run.1 = .ok proof) → IsWitness key ciphertext domain m r := by
    rintro ⟨proof, hproof⟩
    by_contra hnot
    obtain ⟨reason, hrefused⟩ :=
      proveInDomain_eq_error hash hnot context ⟨supply, .fresh⟩
    rw [show run = _ from hrefused] at hproof
    cases hproof
  have hfresh : (⟨supply, .fresh⟩ : Prover).transcript = .fresh := rfl
  have hcompletes (hwitness : IsWitness key ciphertext domain m r) :=
    completes_proveInDomain hash hwitness.mem hwitness.encrypts context hfresh
  refine ⟨fun hleft => ⟨hwitness, fun hopens => ?_⟩,
    fun hnot => proveInDomain_eq_error hash hnot context _, fun proof hproof => ?_⟩
  · obtain ⟨proof, reached, hrun, _⟩ := (hcompletes hopens).exists_ok hleft
    exact ⟨proof, congrArg Prod.fst hrun⟩
  · have hrun : run = (.ok proof, run.2) := Prod.ext hproof rfl
    exact ((hcompletes (hwitness ⟨proof, hproof⟩)).of_ok hrun).1.2

/-- Fourteen is three modulo the order of the group, and so is the randomness. -/
theorem MembershipProof.complete_for_any_domain_small :
    let hash : Hash := fun bytes => [bytes.length.toUInt8]
    let made : Ciphertext := ⟨18, 3⟩
    let supply : Bytes := [1, 2, 3, 4, 5, 6]
    let run := proveInDomain hash .small made [3, 14, 3] 14 25 [7] ⟨supply, .fresh⟩
    let wrong : ProofCall := .proveInDomain .small made [3, 14, 3] 14 26 [7]
    let right : ProofCall := .proveInDomain .small made [3, 14, 3] 14 25 [7]
    run.1 ≠ .error .exhausted ∧ IsWitness .small made [3, 14, 3] 14 25 ∧
      (∃ proof, run.1 = .ok proof ∧
        Transcript.onFresh (verifyInDomain hash .small made [3, 14, 3] proof [7]) = .ok true) ∧
      ¬ IsWitness .small made [3, 14, 3] 14 26 ∧
      (∃ reason, proveInDomain hash .small made [3, 14, 3] 14 26 [7] ⟨supply, .fresh⟩ =
        (.error (.refused (.invalidSelection reason)), ⟨supply, .fresh⟩)) ∧
      ProofCall.runAll hash [wrong, right] ⟨supply, .fresh⟩ =
        ((ProofCall.runApart hash [wrong, right] supply).1,
          ⟨(ProofCall.runApart hash [wrong, right] supply).2, .fresh⟩) := by
  intro hash made supply run wrong right
  have hleft : run.1 ≠ .error .exhausted := by decide +kernel
  have hwitness : IsWitness .small made [3, 14, 3] 14 25 := ⟨by decide, by decide +kernel⟩
  have hnot : ¬ IsWitness .small made [3, 14, 3] 14 26 := by
    rintro ⟨_, hencrypts⟩
    have hother : Ciphertext.encrypt .small 14 26 ≠ .ok made := by decide +kernel
    exact hother hencrypts
  obtain ⟨hproves, _, hcalls⟩ := complete_for_any_domain hash
  obtain ⟨hiff, _, hverifies⟩ := hproves .small made [3, 14, 3] 14 25 [7] supply
  obtain ⟨_, hrefused, _⟩ := hproves .small made [3, 14, 3] 14 26 [7] supply
  obtain ⟨proof, hproof⟩ := (hiff hleft).2 hwitness
  exact ⟨hleft, hwitness, ⟨proof, hproof, hverifies proof hproof⟩, hnot, hrefused hnot,
    hcalls [wrong, right] supply⟩

end SecretBallot
