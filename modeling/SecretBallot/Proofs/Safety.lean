import Mathlib
import SecretBallot.Proofs.Answered
import SecretBallot.Proofs.PartialDecryption
import SecretBallot.Proofs.Proof.Membership
import SecretBallot.Proofs.Proof.Sum
import SecretBallot.Proofs.Supply
import SecretBallot.Ballot.Seal
import SecretBallot.Tally.Closed

namespace SecretBallot

open SecretBallot.Action

namespace DecryptionKey

theorem index_lt_q_of_collected {group : Group} {threshold : UInt64} {shares : List PrivateShare}
    {collected : Dict UInt64 Nat}
    (hcollect : shares.foldlM (collectShare group threshold) ∅ = .ok collected) {index : UInt64}
    {value : Nat} (hget : collected.get? index = some value) : index.toNat < group.q := by
  have hempty (index : UInt64) (value : Nat)
      (hget : (∅ : Dict UInt64 Nat).get? index = some value) : index.toNat < group.q := by
    cases hget
  refine foldlM_preserves (fun collected => ∀ index value,
    collected.get? index = some value → index.toNat < group.q) ?_ hempty hcollect index value hget
  intro collected share next _ hcollected hnext index value hget
  obtain ⟨⟨rfl, _⟩, _, rfl⟩ := collectShare_eq_ok_iff.1 hnext
  rw [Dict.get?_insert] at hget
  by_cases hindex : index = share.index
  · exact hindex ▸ share.index_lt_q
  · rw [if_neg hindex] at hget
    exact hcollected index value hget

/-- Shares of other groups are refused before their indices are interpolated. -/
theorem answered_combine (shares : List PrivateShare) : Answered (combine shares) := by
  cases shares with
  | nil => exact answered_refused _
  | cons first rest =>
    refine (answered_lift _).bind fun lowest hpoints => ?_
    rw [lift_eq_ok_iff, points] at hpoints
    obtain ⟨collected, hcollect, hlowest⟩ := bind_eq_ok_iff.1 hpoints
    have hreduced : ∀ point ∈ lowest, point.1 < first.group.q := by
      intro point hpoint
      obtain ⟨index, hindex, hget⟩ := exists_of_mem_lowestPoints hlowest hpoint
      exact hindex ▸ index_lt_q_of_collected hcollect hget
    obtain ⟨x, hx⟩ := Group.exists_interpolate hreduced
    exact (answered_of_eq_ok hx).bind fun _ _ => answered_ok _

end DecryptionKey

namespace PartialDecryption

variable {group : Group}

/-- What was collected interpolates to a member. -/
theorem exists_interpolateInExponent {threshold : UInt64} {parts : List PartialDecryption}
    {lowest : List (Nat × Nat)} (hpoints : points group threshold parts = .ok lowest) :
    ∃ mask, group.interpolateInExponent lowest = .ok mask ∧ group.isMember mask = true := by
  obtain ⟨collected, hcollect, hlowest⟩ := bind_eq_ok_iff.1 hpoints
  have hcontributed : ∀ point ∈ lowest, point.1 < group.q ∧ group.isMember point.2 = true := by
    intro point hpoint
    obtain ⟨index, hindex, hget⟩ := exists_of_mem_lowestPoints hlowest hpoint
    have hpart := wasContributed hcollect hget
    exact ⟨hindex ▸ hpart.index_lt_q, hpart.isMember⟩
  exact Group.exists_interpolateInExponent (fun point hpoint => (hcontributed point hpoint).1)
    fun point hpoint => (hcontributed point hpoint).2

theorem answered_combine (group : Group) (parts : List PartialDecryption) :
    Answered (combine group parts) := by
  cases parts with
  | nil => exact answered_refused _
  | cons first rest =>
    refine answered_ensure_bind fun _ => (answered_lift _).bind fun lowest hpoints => ?_
    obtain ⟨mask, hmask, _⟩ := exists_interpolateInExponent (lift_eq_ok_iff.1 hpoints)
    exact answered_of_eq_ok hmask

theorem isMember_of_combine {parts : List PartialDecryption} {mask : Nat}
    (hcombine : combine group parts = .ok mask) : group.isMember mask = true := by
  obtain ⟨_, threshold, collected, lowest, hcollect, hlowest, hinterpolate⟩ :=
    of_combine_eq_ok hcombine
  have hpoints : points group threshold parts = .ok lowest :=
    bind_eq_ok_iff.2 ⟨collected, hcollect, hlowest⟩
  obtain ⟨found, hfound, hmember⟩ := exists_interpolateInExponent hpoints
  rw [hfound, Except.ok.injEq] at hinterpolate
  exact hinterpolate ▸ hmember

end PartialDecryption

namespace Ciphertext

variable {group : Group} {ciphertext : Ciphertext}

theorem isMember_pad (hformed : ciphertext.isWellFormed group = true) :
    group.isMember ciphertext.pad = true := by
  rw [isWellFormed, Bool.and_eq_true] at hformed
  exact hformed.1

/-- A plaintext can be searched for behind a mask that is a member. -/
theorem answered_search (group : Group) (data bound : Nat) {mask : Nat}
    (hmask : group.isMember mask = true) :
    Answered (do
      let target ← group.div data mask
      search group target bound) :=
  (answered_of_eq_ok (group.div_eq_ok hmask data)).bind fun _ _ => answered_lift _

theorem answered_decrypt (key : DecryptionKey) (ciphertext : Ciphertext) (bound : Nat) :
    Answered (decrypt key ciphertext bound) := by
  refine answered_ensure_bind fun hformed => ?_
  have hpad := isMember_pad hformed
  have hmask := key.group.pow_eq_ok (key.group.lt_p_of_isMember hpad) key.x
  refine (answered_of_eq_ok hmask).bind fun mask hunmask => answered_search _ _ _ ?_
  obtain rfl := Except.ok.inj (hmask.symm.trans hunmask)
  exact key.group.isMember_powMod hpad key.x

theorem answered_partialDecrypt (share : PrivateShare) (ciphertext : Ciphertext) :
    Answered (partialDecrypt share ciphertext) := by
  refine answered_ensure_bind fun hformed => ?_
  have hpower := share.group.pow_eq_ok (share.group.lt_p_of_isMember (isMember_pad hformed))
  exact (answered_of_eq_ok (hpower share.value)).bind fun _ _ => answered_ok _

theorem answered_decryptWithPartials (group : Group) (ciphertext : Ciphertext)
    (parts : List PartialDecryption) (bound : Nat) :
    Answered (ciphertext.decryptWithPartials group parts bound) := by
  refine answered_ensure_bind fun _ => ?_
  refine (PartialDecryption.answered_combine group parts).bind fun mask hmask => ?_
  exact answered_search _ _ _ (PartialDecryption.isMember_of_combine hmask)

end Ciphertext

namespace MembershipProof

theorem answers_verifyInDomain (hash : Hash) (key : PublicKey) (ciphertext : Ciphertext)
    (domain : List UInt64) (proof : MembershipProof) (context : Bytes) :
    (verifyInDomain hash key ciphertext domain proof context).Answers := by
  rw [verifyInDomain]
  by_cases hadmissible : proof.isAdmissible key.group ciphertext domain = true
  · have hpad := Ciphertext.pad_lt_of_isWellFormed (isAdmissible_iff.1 hadmissible).2.2.2
    rw [if_pos hadmissible]
    refine (answers_lift ?_).bind fun commitments => ?_
    · exact answered_of_eq_ok (verifierCommitments_eq hpad proof domain)
    · exact (Transcript.answers_challengeFor hash key.group _).bind fun _ => answers_pure _
  · rw [if_neg hadmissible]
    exact answers_pure _

theorem settles_drawBranches (group : Group) (real count : Nat) :
    (drawBranches group real count).Settles := by
  refine settles_mapM fun i _ => ?_
  split
  · exact settles_pure _
  · refine (Draw.settles_exponent group).bind fun challenge => ?_
    exact (Draw.settles_exponent group).bind fun response => settles_pure _

/-- The ciphertext that is proved is one that was encrypted, so its powers can be taken, and there
    is a branch for every value of the domain. -/
theorem settles_proveInDomain (hash : Hash) (key : PublicKey) (ciphertext : Ciphertext)
    (domain : List UInt64) (m : UInt64) (r : Nat) (context : Bytes) :
    (proveInDomain hash key ciphertext domain m r context).Settles := by
  rw [proveInDomain]
  cases hfind : domain.findIdx? (· == m) with
  | none => exact settles_refuse _
  | some real =>
    obtain ⟨hreal, _⟩ := List.findIdx?_eq_some_iff_getElem.1 hfind
    refine settles_lift_bind (answered_of_eq_ok (Ciphertext.encrypt_eq key m.toNat r)) ?_
    intro opened hopened
    refine settles_ensure_bind fun hsame => ?_
    subst hsame
    have hpad := Ciphertext.pad_lt_of_isWellFormed (Ciphertext.isWellFormed_of_encrypt hopened)
    refine (Prover.settles_draw (Draw.settles_exponent key.group)).bind fun w => ?_
    refine (Prover.settles_draw (settles_drawBranches ..)).bind_of_run
      fun branches prover reached hdraw => ?_
    obtain ⟨_, hbranches, _⟩ := Action.zoom_eq_ok_iff.1 hdraw
    have hlength := length_of_drawBranches hbranches
    refine settles_lift_bind
      (answered_of_eq_ok (require_of _ (hlength ▸ hreal))) fun _ _ => ?_
    refine settles_lift_bind
      (answered_of_eq_ok (proverCommitments_eq hpad real w hlength)) fun _ _ => ?_
    exact (Prover.settles_challengeFor ..).bind fun challenge => settles_pure _

end MembershipProof

namespace SumProof

theorem answers_verify (hash : Hash) (key : PublicKey) (ciphertexts : List Ciphertext)
    (total : UInt64) (proof : SumProof) (context : Bytes) :
    (verify hash key ciphertexts total proof context).Answers := by
  rw [verify]
  split
  · refine (answers_lift ?_).bind fun commitments => ?_
    · exact answered_of_eq_ok (verifierCommitments_eq proof key ciphertexts total)
    · exact (Transcript.answers_challengeFor hash key.group _).bind fun _ => answers_pure _
  · exact answers_pure _

theorem settles_prove (hash : Hash) (key : PublicKey) (ciphertexts : List Ciphertext)
    (total : UInt64) (randomness : List Nat) (context : Bytes) :
    (prove hash key ciphertexts total randomness context).Settles := by
  have hh := key.group.lt_p_of_isMember key.isMember_h
  rw [prove]
  refine settles_ensure_bind fun _ => ?_
  refine settles_lift_bind (answered_of_eq_ok (Ciphertext.encrypt_eq ..)) fun opened _ => ?_
  refine settles_ensure_bind fun _ => ?_
  refine (Prover.settles_draw (Draw.settles_exponent key.group)).bind fun w => ?_
  refine settles_lift_bind (answered_of_eq_ok (key.group.pow_eq_ok hh w)) fun keyPower _ => ?_
  exact (Prover.settles_challengeFor ..).bind fun challenge => settles_pure _

end SumProof

end SecretBallot
