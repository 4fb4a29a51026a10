import Mathlib
import SecretBallot.Proofs.Ceremony.Dealers
import SecretBallot.Proofs.Safety
import SecretBallot.Proofs.Tally.Effect
import SecretBallot.Proofs.Wire.Reader

namespace SecretBallot

open SecretBallot.Action

namespace SealedBallot

variable {opener : VoteOpener}

theorem answered_openWith (ballot : SealedBallot)
    (hopener : ∀ race candidate ciphertext, Answered (opener race candidate ciphertext)) :
    Answered (ballot.openWith opener) := by
  refine (answered_mapM fun race _ => ?_).bind fun _ _ => answered_ok _
  refine (Dict.answered_mapM fun entry _ => ?_).bind fun _ _ => answered_ok _
  exact (hopener _ _ _).bind fun _ _ => answered_ok _

theorem answered_decrypt (ballot : SealedBallot) (key : DecryptionKey) :
    Answered (ballot.decrypt key) :=
  ballot.answered_openWith fun _ _ ciphertext => Ciphertext.answered_decrypt key ciphertext 1

theorem answered_verify (ballot : SealedBallot) (key : PublicKey) :
    Answered (ballot.verify key) := by
  refine (answered_forM fun race _ => answered_forM fun entry _ => ?_).bind fun _ _ =>
    answered_forM fun race _ => ?_
  · refine Answered.bind ?_ fun _ _ => answered_lift _
    exact MembershipProof.answers_verifyInDomain _ _ _ _ _ _ .fresh
  · refine Answered.bind ?_ fun _ _ => answered_lift _
    exact SumProof.answers_verify _ _ _ _ _ _ .fresh

end SealedBallot

theorem settles_sealRace (key : PublicKey) (name : String) (limit : UInt64)
    (openings : Dict String Opening) (nonce : Bytes) :
    (sealRace key name limit openings nonce).Settles := by
  refine (Dict.settles_mapM fun entry _ => ?_).bind fun votes => ?_
  · refine settles_lift_bind (answered_of_eq_ok (Ciphertext.encrypt_eq ..)) fun ciphertext _ => ?_
    exact (MembershipProof.settles_proveInDomain ..).bind fun proof => settles_pure _
  · exact (SumProof.settles_prove ..).bind fun sumProof => settles_pure _

theorem Witness.settles_shift (witness : Witness) (key : PublicKey) (race candidate : String)
    (vote : SealedVote) : (witness.shift key race candidate vote).Settles := by
  rw [shift]
  cases witness.get? race candidate with
  | none => exact settles_refuse _
  | some opening =>
    refine settles_lift_bind (answered_of_eq_ok (Ciphertext.encrypt_eq ..)) fun opened _ => ?_
    refine settles_ensure_bind fun _ => ?_
    exact (Prover.settles_draw (Draw.settles_exponent key.group)).bind fun _ => settles_pure _

theorem SealedBallot.settles_reseal (ballot : SealedBallot) (key : PublicKey) (witness : Witness)
    (nonce : Bytes) : (ballot.reseal key witness nonce).Settles := by
  refine settles_ensure_bind fun _ => ?_
  refine (Prover.settles_onFresh (settles_mapM fun race _ => ?_)).bind fun _ => settles_pure _
  refine (Dict.settles_mapM fun entry _ => ?_).bind fun openings => ?_
  · exact witness.settles_shift key race.name entry.1 entry.2
  · exact (settles_sealRace ..).bind fun _ => settles_pure _

/-- Elements outside the subgroup are told apart before any of them is raised to a power. -/
theorem Commitment.answered_verifyShare (commitment : Commitment) (group : Group) (x share : Nat) :
    Answered (commitment.verifyShare group x share) := by
  rw [verifyShare]
  split
  · next hmembers =>
    refine (answered_mapM fun entry hentry => ?_).bind fun _ _ => answered_ok _
    have hmember := List.all_eq_true.1 hmembers entry.1 (List.of_mem_zip hentry).1
    exact answered_of_eq_ok (group.pow_eq_ok (group.lt_p_of_isMember hmember) entry.2)
  · exact answered_ok false

namespace Authority

/-- The slots of a dealer that passes the check are there, whatever was delivered before. -/
theorem answered_receive {authority start : Authority} {group : Group} {n t index : UInt64}
    (hsetup : authority.SameSetup start) (hfresh : start.Fresh group n t index)
    (share : SecretShare) (commitment : Commitment) :
    Answered (receive share commitment authority).1 := by
  have hreceived : authority.received.length = authority.n.toNat := by
    rw [hsetup.length_received, hfresh.length_received, hsetup.n_eq, hfresh.n_eq]
  have hcommitted : authority.committed.length = authority.n.toNat := by
    rw [hsetup.length_committed, hfresh.length_committed, hsetup.n_eq, hfresh.n_eq]
  rw [receive, get_bind_apply]
  refine answers_ensure_bind (fun _ => answers_ensure_bind fun hdealer => ?_) authority
  have hslot : (share.dealer - 1).toNat < authority.n.toNat := by
    have hpos := UInt64.le_iff_toNat_le.1 hdealer.1
    have hle := UInt64.le_iff_toNat_le.1 hdealer.2
    rw [toNat_sub_one hdealer.1]
    exact (Nat.sub_lt hpos Nat.one_pos).trans_le hle
  refine answers_ensure_bind fun _ => ?_
  refine (answers_lift (answered_entryAt (hreceived ▸ hslot))).bind fun _ => ?_
  refine answers_ensure_bind fun _ => ?_
  refine (answers_lift (Commitment.answered_verifyShare ..)).bind fun _ => ?_
  refine answers_ensure_bind fun _ => ?_
  refine (answers_lift (answered_replaceAt (hreceived ▸ hslot) _)).bind fun _ => ?_
  exact (answers_lift (answered_replaceAt (hcommitted ▸ hslot) _)).bind fun _ => answers_set _

end Authority

namespace DecryptionShare

theorem answered_new (share : PrivateShare) (tally : ClosedTally) :
    Answered (DecryptionShare.new share tally) := by
  refine (answered_mapM fun entry _ => ?_).bind fun _ _ => answered_ok _
  exact (Ciphertext.answered_partialDecrypt share entry.2).bind fun _ _ => answered_ok _

theorem answered_decrypt (shares : List DecryptionShare) (group : Group) (slot : Slot)
    (ciphertext : Ciphertext) (bound : Nat) :
    Answered (decrypt shares group slot ciphertext bound) :=
  (answered_lift _).bind fun parts _ => ciphertext.answered_decryptWithPartials group parts bound

end DecryptionShare

namespace ClosedTally

theorem answered_openTotals (tally : ClosedTally) {opener : VoteOpener}
    (hopener : ∀ race candidate ciphertext, Answered (opener race candidate ciphertext)) :
    Answered (tally.openTotals opener) :=
  Dict.answered_mapM fun _ _ => Dict.answered_mapM fun _ _ => hopener _ _ _

theorem answered_openChallenged (tally : ClosedTally) {opener : String → VoteOpener}
    (hopener : ∀ ballot race candidate ciphertext,
      Answered (opener ballot race candidate ciphertext)) :
    Answered (tally.openChallenged opener) := by
  refine (answered_mapM fun ballot _ => ?_).bind fun _ _ => answered_ok _
  exact (ballot.answered_openWith (hopener ballot.id)).bind fun _ _ => answered_ok _

end ClosedTally

namespace Engine

theorem answers_requireOpen : requireOpen.Answers :=
  answers_get.bind fun _ => answers_liftExcept _

theorem answers_record (ballot : SealedBallot) (nonce : Bytes) :
    (record ballot nonce).Answers := by
  refine answers_requireOpen.bind fun _ => answers_get.bind fun engine => ?_
  refine (answers_liftExcept _).bind fun _ => (answers_liftExcept _).bind fun _ => ?_
  refine (answers_lift (ballot.answered_verify _)).bind fun _ => ?_
  exact (answers_liftExcept _).bind fun _ => (answers_liftExcept _).bind fun _ => answers_set _

theorem answers_entry (nonce : Bytes) : (entry nonce).Answers := by
  refine answers_get.bind fun engine => ?_
  split
  · exact answers_pure _
  · exact answers_refuse _

theorem answers_confirm (nonce : Bytes) : (confirm nonce).Answers := by
  refine answers_requireOpen.bind fun _ => (answers_entry nonce).bind fun entry => ?_
  split
  · exact answers_pure _
  · exact answers_refuse _
  · exact (answers_modify _).bind fun _ => answers_pure _

theorem answers_challenge (nonce : Bytes) : (challenge nonce).Answers := by
  refine answers_requireOpen.bind fun _ => (answers_entry nonce).bind fun entry => ?_
  split
  · exact answers_pure _
  · exact answers_refuse _
  · exact (answers_modify _).bind fun _ => answers_pure _

theorem answers_shut : shut.Answers :=
  answers_get.bind fun _ => (answers_liftExcept _).bind fun _ => answers_set _

theorem answers_publish (races : Dict String (Dict String Nat))
    (challenged : Dict String PlainBallot) : (publish races challenged).Answers :=
  (answers_modify _).bind fun _ => answers_pure _

theorem answers_reportWithBound (key : DecryptionKey) (bound : Nat) :
    (reportWithBound key bound).Answers := by
  refine answers_shut.bind fun _ => answers_get.bind fun engine => ?_
  refine (answers_liftExcept _).bind fun _ => (answers_lift ?_).bind fun races => ?_
  · exact ClosedTally.answered_openTotals _ fun _ _ total => total.answered_decrypt key bound
  refine (answers_lift ?_).bind fun challenged => answers_publish races challenged
  exact ClosedTally.answered_openChallenged _ fun _ _ _ vote => vote.answered_decrypt key 1

theorem answers_reportFromShares (shares : List DecryptionShare) :
    (reportFromShares shares).Answers := by
  refine answers_shut.bind fun _ => answers_get.bind fun engine => ?_
  refine (answers_lift ?_).bind fun races => ?_
  · exact ClosedTally.answered_openTotals _ fun _ _ _ => DecryptionShare.answered_decrypt ..
  refine (answers_lift ?_).bind fun challenged => answers_publish races challenged
  exact ClosedTally.answered_openChallenged _ fun _ _ _ _ => DecryptionShare.answered_decrypt ..

theorem answered_audit (engine : Engine) (key : DecryptionKey) : Answered (engine.audit key) :=
  answered_ensure_bind fun _ =>
    ClosedTally.answered_openChallenged _ fun _ _ _ vote => vote.answered_decrypt key 1

/-- Every call on an engine answers, whatever the engine has gone through. -/
theorem answers_run (call : Call) : call.run.Answers := by
  cases call with
  | record ballot nonce => exact (answers_record ballot nonce).bind fun _ => answers_pure _
  | confirm nonce => exact (answers_confirm nonce).bind fun _ => answers_pure _
  | challenge nonce => exact (answers_challenge nonce).bind fun _ => answers_pure _
  | commit event =>
    refine Answers.bind ((answers_liftExcept _).bind fun ballot => ?_) fun _ => answers_pure _
    exact (answers_liftExcept _).bind fun _ => answers_record ballot event.nonce
  | scan event =>
    refine Answers.bind (answers_get.bind fun engine => ?_) fun _ => answers_pure _
    split
    · next nonce _ => exact answers_confirm nonce
    · exact answers_refuse _
  | close =>
    refine Answers.bind (answers_shut.bind fun _ => ?_) fun _ => answers_pure _
    exact answers_get.bind fun _ => answers_pure _
  | report key =>
    refine Answers.bind (answers_get.bind fun engine => ?_) fun _ => answers_pure _
    exact answers_reportWithBound key engine.bound
  | reportWithBound key bound =>
    exact (answers_reportWithBound key bound).bind fun _ => answers_pure _
  | reportFromShares shares =>
    exact (answers_reportFromShares shares).bind fun _ => answers_pure _

end Engine

/-- What is taken from a record is the slice that was asked for. -/
theorem Wire.Decoder.of_take {count : Nat} {reader reached : Reader} {bytes : Bytes}
    (htake : take count reader = (.ok bytes, reached)) :
    bytes.length = count ∧ reader.rest = bytes ++ reached.rest := by
  rw [take_apply] at htake
  by_cases hshort : reader.rest.length < count
  · rw [if_pos hshort] at htake
    cases htake
  · rw [if_neg hshort] at htake
    cases htake
    exact ⟨List.length_take_of_le (Nat.not_lt.1 hshort), (List.take_append_drop ..).symm⟩

/-- What may be relied on with any arguments and in any state that is reached: a call is answered,
    with a value or a refusal, and never runs into an assertion, an index out of range among them.
    One that draws breaks none whatever it draws, and always has bytes that lead it to an answer. -/
structure NoAssertionReached (hash : Hash) : Prop where
  /-- Recording, confirming, challenging, closing and reporting. -/
  call : ∀ (engine : Engine) (call : Engine.Call), Answered (engine.answer call)
  audit : ∀ (engine : Engine) (key : DecryptionKey), Answered (engine.audit key)
  verifyBallot : ∀ (ballot : SealedBallot) (key : PublicKey), Answered (ballot.verify key)
  verifyInDomain : ∀ (key : PublicKey) (ciphertext : Ciphertext) (domain : List UInt64)
    (proof : MembershipProof) (context : Bytes) (transcript : Transcript), Answered
      (MembershipProof.verifyInDomain hash key ciphertext domain proof context transcript).1
  verifySum : ∀ (key : PublicKey) (ciphertexts : List Ciphertext) (total : UInt64)
    (proof : SumProof) (context : Bytes) (transcript : Transcript),
      Answered (SumProof.verify hash key ciphertexts total proof context transcript).1
  proveInDomain : ∀ (key : PublicKey) (ciphertext : Ciphertext) (domain : List UInt64)
    (m : UInt64) (r : Nat) (context : Bytes),
      (MembershipProof.proveInDomain hash key ciphertext domain m r context).Settles
  proveSum : ∀ (key : PublicKey) (ciphertexts : List Ciphertext) (total : UInt64)
    (randomness : List Nat) (context : Bytes),
      (SumProof.prove hash key ciphertexts total randomness context).Settles
  reseal : ∀ (ballot : SealedBallot) (key : PublicKey) (witness : Witness) (nonce : Bytes),
    (ballot.reseal key witness nonce).Settles
  decrypt : ∀ (key : DecryptionKey) (ciphertext : Ciphertext) (bound : Nat),
    Answered (ciphertext.decrypt key bound)
  decryptBallot : ∀ (ballot : SealedBallot) (key : DecryptionKey), Answered (ballot.decrypt key)
  partialDecrypt : ∀ (share : PrivateShare) (ciphertext : Ciphertext),
    Answered (ciphertext.partialDecrypt share)
  partialTally : ∀ (share : PrivateShare) (tally : ClosedTally),
    Answered (DecryptionShare.new share tally)
  decryptWithPartials : ∀ (group : Group) (ciphertext : Ciphertext)
    (parts : List PartialDecryption) (bound : Nat),
      Answered (ciphertext.decryptWithPartials group parts bound)
  combineShares : ∀ shares : List PrivateShare, Answered (DecryptionKey.combine shares)
  combinePartials : ∀ (group : Group) (parts : List PartialDecryption),
    Answered (PartialDecryption.combine group parts)
  combinePublic : ∀ (group : Group) (f : Nat) (shares : List PublicShare),
    Answered (PublicKey.combine group f shares : Outcome PublicKey)
  /-- The authority is one that was created and then took deliveries of any kind. -/
  receive : ∀ (group : Group) (n t index : UInt64) (supply rest : Bytes) (start : Authority),
    Authority.new group n t index supply = (.ok start, rest) →
      ∀ (deliveries : List (SecretShare × Commitment)) (share : SecretShare)
        (commitment : Commitment),
          Answered (Authority.receive share commitment (start.afterDeliveries deliveries)).1
  checkPublicShares : ∀ (authority : Authority) (shares : List PublicShare),
    Answered (authority.checkPublicShares shares : Outcome Unit)
  finish : ∀ authority : Authority, Answered (authority.finish : Outcome PrivateShare)
  /-- What is taken from the bytes of a record is there. -/
  slices : ∀ (count : Nat) (reader reached : Wire.Reader) (bytes : Bytes),
    Wire.Decoder.take count reader = (.ok bytes, reached) →
      bytes.length = count ∧ reader.rest = bytes ++ reached.rest

theorem no_assertion_reached (hash : Hash) : NoAssertionReached hash where
  call engine call := Engine.answers_run call engine
  audit := Engine.answered_audit
  verifyBallot := SealedBallot.answered_verify
  verifyInDomain := MembershipProof.answers_verifyInDomain hash
  verifySum := SumProof.answers_verify hash
  proveInDomain := MembershipProof.settles_proveInDomain hash
  proveSum := SumProof.settles_prove hash
  reseal := SealedBallot.settles_reseal
  decrypt := Ciphertext.answered_decrypt
  decryptBallot := SealedBallot.answered_decrypt
  partialDecrypt := Ciphertext.answered_partialDecrypt
  partialTally := DecryptionShare.answered_new
  decryptWithPartials := Ciphertext.answered_decryptWithPartials
  combineShares := DecryptionKey.answered_combine
  combinePartials := PartialDecryption.answered_combine
  combinePublic _ _ _ := answered_lift _
  receive _ _ _ _ _ _ start hnew deliveries :=
    Authority.answered_receive (Authority.sameSetup_afterDeliveries start deliveries)
      (Authority.fresh_of_new hnew)
  checkPublicShares _ _ := answered_lift _
  finish _ := answered_lift _
  slices _ _ _ _ := Wire.Decoder.of_take

/-- A partial decryption under an index that is not below `q`, a mask that is zero, and deliveries
    to the first of three authorities from dealers at both ends of what it has slots for. -/
theorem no_assertion_reached_small :
    let parts : List PartialDecryption := [⟨1, 2, 3⟩, ⟨12, 2, 3⟩]
    let start : Authority := ⟨Group.small, 1, 3, 2, ⟨1, 3, 18⟩, ⟨[3, 5]⟩, [some 8, none, none],
      [some 18, none, none]⟩
    let reached := start.afterDeliveries [(⟨2, 1, 5⟩, ⟨[3, 4]⟩)]
    let deliver (dealer : UInt64) :=
      (Authority.receive ⟨dealer, 1, 20⟩ ⟨[16, 8]⟩ reached).1
    Answered (PartialDecryption.combine Group.small parts) ∧
      PartialDecryption.combine Group.small parts =
        .error (.refused (.invalidShare (.partialIndex 12))) ∧
      Answered (Ciphertext.decrypt ⟨Group.small, 4⟩ ⟨0, 3⟩ 5) ∧
      Authority.new Group.small 3 2 1 [3, 0, 5] = (.ok start, []) ∧
      (∀ dealer, Answered (deliver dealer)) ∧
      deliver 0 = .error (.refused (.invalidParameters 3 2 0)) ∧ deliver 3 = .ok () ∧
      deliver 4 = .error (.refused (.invalidParameters 3 2 4)) := by
  intro parts start reached deliver
  have hsafe := no_assertion_reached Blake3.hash
  have hnew : Authority.new Group.small 3 2 1 [3, 0, 5] = (.ok start, []) := rfl
  refine ⟨hsafe.combinePartials Group.small parts, rfl, hsafe.decrypt _ _ _, hnew, ?_, ?_⟩
  · exact fun dealer => hsafe.receive Group.small 3 2 1 _ _ start hnew _ ⟨dealer, 1, 20⟩ _
  · decide +kernel

end SecretBallot
