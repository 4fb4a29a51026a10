import Mathlib
import SecretBallot.Ballot.Sealed
import SecretBallot.Proofs.Proof.Membership
import SecretBallot.Proofs.Proof.Question
import SecretBallot.Proofs.Proof.Sum

namespace SecretBallot

namespace Prover

variable {α β : Type}

theorem draw_bind (draw : Draw α) (next : α → Draw β) :
    Prover.draw (draw >>= next) = Prover.draw draw >>= fun value => Prover.draw (next value) :=
  Action.zoom_bind supply (fun supply prover => { prover with supply }) (fun _ _ => rfl)
    (fun _ _ _ => rfl) draw next

theorem draw_pure (value : α) : Prover.draw (pure value) = pure value :=
  rfl

theorem draw_lift (outcome : Outcome α) :
    Prover.draw (liftM outcome) = (liftM outcome : Action Prover α) :=
  rfl

theorem draw_liftExcept (x : Except Error α) :
    Prover.draw (liftM x) = (liftM x : Action Prover α) :=
  rfl

theorem onTranscript_bind (action : Action Transcript α) (next : α → Action Transcript β) :
    onTranscript (action >>= next) =
      onTranscript action >>= fun value => onTranscript (next value) :=
  Action.zoom_bind transcript (fun transcript prover => { prover with transcript })
    (fun _ _ => rfl) (fun _ _ _ => rfl) action next

theorem onTranscript_pure (value : α) : onTranscript (pure value) = pure value :=
  rfl

theorem onTranscript_lift (outcome : Outcome α) :
    onTranscript (liftM outcome) = (liftM outcome : Action Prover α) :=
  rfl

end Prover

/-- A call of a prover or of a verifier with its arguments. -/
inductive ProofCall where
  | proveInDomain (key : PublicKey) (ciphertext : Ciphertext) (domain : List UInt64) (m : UInt64)
    (r : Nat) (context : Bytes)
  | verifyInDomain (key : PublicKey) (ciphertext : Ciphertext) (domain : List UInt64)
    (proof : MembershipProof) (context : Bytes)
  | proveSum (key : PublicKey) (ciphertexts : List Ciphertext) (total : UInt64)
    (randomness : List Nat) (context : Bytes)
  | verifySum (key : PublicKey) (ciphertexts : List Ciphertext) (total : UInt64)
    (proof : SumProof) (context : Bytes)

namespace ProofCall

/-- What a call hands back when it does not fail. -/
inductive Answer where
  | membership (proof : MembershipProof)
  | sum (proof : SumProof)
  | verdict (valid : Bool)

def run (hash : Hash) : ProofCall → Action Prover Answer
  | .proveInDomain key ciphertext domain m r context => do
    pure (.membership (← MembershipProof.proveInDomain hash key ciphertext domain m r context))
  | .verifyInDomain key ciphertext domain proof context => do
    pure (.verdict (← Prover.onTranscript
      (MembershipProof.verifyInDomain hash key ciphertext domain proof context)))
  | .proveSum key ciphertexts total randomness context => do
    pure (.sum (← SumProof.prove hash key ciphertexts total randomness context))
  | .verifySum key ciphertexts total proof context => do
    pure (.verdict (← Prover.onTranscript
      (SumProof.verify hash key ciphertexts total proof context)))

def kind : ProofCall → ProofKind
  | .proveInDomain .. | .verifyInDomain .. => .membership
  | .proveSum .. | .verifySum .. => .sum

def context : ProofCall → Bytes
  | .proveInDomain _ _ _ _ _ context | .verifyInDomain _ _ _ _ context
  | .proveSum _ _ _ _ context | .verifySum _ _ _ _ context => context

def key : ProofCall → PublicKey
  | .proveInDomain key .. | .verifyInDomain key .. | .proveSum key .. | .verifySum key .. => key

def ciphertexts : ProofCall → List Ciphertext
  | .proveInDomain _ ciphertext .. | .verifyInDomain _ ciphertext .. => [ciphertext]
  | .proveSum _ ciphertexts .. | .verifySum _ ciphertexts .. => ciphertexts

/-- The plaintexts in question, which are those of the domain or the declared total alone. -/
def values : ProofCall → List UInt64
  | .proveInDomain _ _ domain .. | .verifyInDomain _ _ domain .. => domain
  | .proveSum _ _ total .. | .verifySum _ _ total .. => [total]

/-- The bytes that the outcome of a call depends on through their hash, with a fresh transcript. -/
def Asks (call : ProofCall) (supply bytes : Bytes) : Prop :=
  ∃ hash other : Hash, (∀ input, input ≠ bytes → hash input = other input) ∧
    call.run hash ⟨supply, .fresh⟩ ≠ call.run other ⟨supply, .fresh⟩

/-- The commitments of a call, and its answer to every challenge. -/
structure Move where
  commitments : List (Nat × Nat)
  answer : Nat → Answer

/-- What a call does before it uses the hash. A verifier can be done with that. -/
def firstMove : ProofCall → Draw (Option Move)
  | .proveInDomain key ciphertext domain m r _ => do
    match domain.findIdx? (· == m) with
    | none => refuse (.invalidSelection (.outsideDomain m domain))
    | some real =>
      let opened ← Ciphertext.encrypt key m.toNat r
      ensure (opened = ciphertext) (.invalidSelection .notAnOpening)
      let w ← Draw.exponent key.group
      let branches ← MembershipProof.drawBranches key.group real domain.length
      require (real < branches.length) (.indexOutOfRange branches.length real)
      let commitments ← MembershipProof.proverCommitments key ciphertext domain real w branches
      pure (some ⟨commitments, fun challenge =>
        .membership (MembershipProof.complete key.group real w r challenge branches)⟩)
  | .verifyInDomain key ciphertext domain proof _ => do
    if proof.isAdmissible key.group ciphertext domain then
      let commitments ← proof.verifierCommitments key ciphertext domain
      pure (some ⟨commitments, fun challenge =>
        .verdict (challenge == key.group.sumQ proof.challenges)⟩)
    else pure none
  | .proveSum key ciphertexts total randomness _ => do
    ensure (ciphertexts.length = randomness.length)
      (.countMismatch .ciphertexts ciphertexts.length randomness.length)
    let r := key.group.sumQ randomness
    let opened ← Ciphertext.encrypt key total.toNat r
    ensure (opened = Ciphertext.combineAll key.group ciphertexts)
      (.invalidSelection (.notTheTotal total))
    let w ← Draw.exponent key.group
    let keyPower ← key.group.pow key.h w
    pure (some ⟨[(key.group.powG w, keyPower)], fun challenge =>
      .sum ⟨challenge, key.group.addQ w (key.group.mulQ challenge r)⟩⟩)
  | .verifySum key ciphertexts total proof _ => do
    if proof.isAdmissible key.group ciphertexts then
      let commitments ← proof.verifierCommitments key ciphertexts total
      pure (some ⟨[commitments], fun challenge => .verdict (challenge == proof.challenge)⟩)
    else pure none

/-- The bytes that a call hashes behind its commitments. -/
def bytes (call : ProofCall) (commitments : List (Nat × Nat)) : Bytes :=
  statement call.kind.label call.context call.key call.ciphertexts call.values
    ++ frameNats (commitments.map (·.1) ++ commitments.map (·.2))

/-- The rest of a call, from its first move on. -/
def finish (hash : Hash) (call : ProofCall) : Option Move → Action Prover Answer
  | none => pure (.verdict false)
  | some move => do
    let challenge ← Prover.onTranscript
      (Transcript.challengeFor hash call.key.group (call.bytes move.commitments))
    pure (move.answer challenge)

/-- A call is its first move and an answer to one challenge. -/
theorem run_eq (hash : Hash) (call : ProofCall) :
    call.run hash = Prover.draw call.firstMove >>= call.finish hash := by
  cases call with
  | proveInDomain key ciphertext domain m r context =>
    rw [run, firstMove, MembershipProof.proveInDomain]
    cases domain.findIdx? (· == m) with
    | none => rfl
    | some real =>
      simp only [Prover.draw_bind, Prover.draw_lift, Prover.draw_liftExcept, Prover.draw_pure,
        bind_assoc, pure_bind]
      rfl
  | verifyInDomain key ciphertext domain proof context =>
    rw [run, firstMove, MembershipProof.verifyInDomain]
    by_cases hadmissible : proof.isAdmissible key.group ciphertext domain = true
    · rw [if_pos hadmissible, if_pos hadmissible]
      simp only [Prover.draw_bind, Prover.draw_lift, Prover.draw_pure, Prover.onTranscript_bind,
        Prover.onTranscript_lift, Prover.onTranscript_pure, bind_assoc, pure_bind]
      rfl
    · rw [if_neg hadmissible, if_neg hadmissible]
      rfl
  | proveSum key ciphertexts total randomness context =>
    rw [run, firstMove, SumProof.prove]
    simp only [Prover.draw_bind, Prover.draw_lift, Prover.draw_liftExcept, Prover.draw_pure,
      bind_assoc, pure_bind]
    rfl
  | verifySum key ciphertexts total proof context =>
    rw [run, firstMove, SumProof.verify]
    by_cases hadmissible : proof.isAdmissible key.group ciphertexts = true
    · rw [if_pos hadmissible, if_pos hadmissible]
      simp only [Prover.draw_bind, Prover.draw_lift, Prover.draw_pure, Prover.onTranscript_bind,
        Prover.onTranscript_lift, Prover.onTranscript_pure, bind_assoc, pure_bind]
      rfl
    · rw [if_neg hadmissible, if_neg hadmissible]
      rfl

/-- What every first move has: as many commitments as the kind of proof asks for, all reduced, and
    an answer that depends on the challenge. -/
structure Fits (call : ProofCall) (move : Move) : Prop where
  shaped : call.kind.Shapes call.ciphertexts.length call.values.length move.commitments.length
  reduced : ∀ pair ∈ move.commitments, pair.1 < call.key.group.p ∧ pair.2 < call.key.group.p
  tells : ∃ challenge < call.key.group.q, ∃ other < call.key.group.q,
    move.answer challenge ≠ move.answer other

section Moves

variable {key : PublicKey} {ciphertext : Ciphertext} {ciphertexts : List Ciphertext}
  {domain : List UInt64} {total : UInt64} {context supply rest : Bytes} {move : Move}

theorem commitments_lt {d : UInt64} {c s : Nat} {pair : Nat × Nat}
    (hpair : ciphertext.commitments key d c s = .ok pair) :
    pair.1 < key.group.p ∧ pair.2 < key.group.p := by
  rw [Ciphertext.commitments] at hpair
  obtain ⟨shifted, _, hpair⟩ := bind_eq_ok_iff.1 hpair
  obtain ⟨padPower, _, hpair⟩ := bind_eq_ok_iff.1 hpair
  obtain ⟨keyPower, _, hpair⟩ := bind_eq_ok_iff.1 hpair
  obtain ⟨shiftedPower, _, hpair⟩ := bind_eq_ok_iff.1 hpair
  cases hpair
  exact ⟨key.group.mul_lt _ _, key.group.mul_lt _ _⟩

/-- A verdict can go either way. -/
theorem exists_verdict_ne {sum : Nat} (hsum : sum < key.group.q) :
    ∃ challenge < key.group.q, ∃ other < key.group.q,
      Answer.verdict (challenge == sum) ≠ Answer.verdict (other == sum) := by
  have hother : ∃ other < key.group.q, other ≠ sum := by
    have hq := key.group.one_lt_q
    by_cases hzero : sum = 0
    · exact ⟨1, hq, by omega⟩
    · exact ⟨0, by omega, by omega⟩
  obtain ⟨other, hlt, hne⟩ := hother
  exact ⟨sum, hsum, other, hlt, by simp [hne]⟩

theorem fits_proveInDomain {m : UInt64} {r : Nat}
    (hmove : (proveInDomain key ciphertext domain m r context).firstMove supply =
      (.ok (some move), rest)) :
    (proveInDomain key ciphertext domain m r context).Fits move := by
  rw [firstMove] at hmove
  rcases hreal : domain.findIdx? (· == m) with _ | real
  · rw [hreal] at hmove
    cases hmove
  obtain ⟨hlt, _⟩ := List.findIdx?_eq_some_iff_findIdx_eq.1 hreal
  rw [hreal] at hmove
  dsimp only at hmove
  obtain ⟨_, _, _, hmove⟩ := Action.bind_eq_ok_iff.1 hmove
  obtain ⟨_, _, _, hmove⟩ := Action.bind_eq_ok_iff.1 hmove
  obtain ⟨w, between, _, hmove⟩ := Action.bind_eq_ok_iff.1 hmove
  obtain ⟨branches, _, hbranches, hmove⟩ := Action.bind_eq_ok_iff.1 hmove
  obtain ⟨_, _, _, hmove⟩ := Action.bind_eq_ok_iff.1 hmove
  obtain ⟨commitments, _, hlift, hmove⟩ := Action.bind_eq_ok_iff.1 hmove
  obtain ⟨hcommitments, rfl⟩ := Action.lift_apply_eq_ok_iff.1 hlift
  rw [Action.pure_eq_ok_iff, Option.some.injEq] at hmove
  obtain ⟨rfl, rfl⟩ := hmove
  have hdrawn := (MembershipProof.completes_drawBranches key.group real domain.length _).of_ok
    hbranches
  have heach := forall₂_of_mapM hcommitments
  have hlength : commitments.length = domain.length := by
    rw [← heach.length_eq, List.length_zipIdx]
  refine ⟨⟨rfl, hlength⟩, fun pair hpair => ?_, 0, key.group.q_pos, 1, key.group.one_lt_q, ?_⟩
  · obtain ⟨⟨d, i⟩, _, hone⟩ := exists_of_mem_of_forall₂ heach hpair
    dsimp only at hone
    by_cases hi : i = real
    · rw [if_pos hi] at hone
      obtain ⟨keyPower, hpower, hone⟩ := bind_eq_ok_iff.1 hone
      cases hone
      rw [key.group.pow_eq_ok (key.group.lt_p_of_isMember key.isMember_h)] at hpower
      cases hpower
      exact ⟨key.group.powG_lt _, key.group.powMod_lt _ _⟩
    · rw [if_neg hi] at hone
      obtain ⟨⟨c, s⟩, _, hone⟩ := bind_eq_ok_iff.1 hone
      exact commitments_lt hone
  · -- The challenges of a completed proof sum to the one that was asked for.
    intro hsame
    have hsums := congrArg (fun proof => key.group.sumQ proof.challenges)
      (Answer.membership.inj hsame)
    rw [MembershipProof.sumQ_complete hdrawn hlt key.group.q_pos,
      MembershipProof.sumQ_complete hdrawn hlt key.group.one_lt_q] at hsums
    cases hsums

theorem fits_verifyInDomain {proof : MembershipProof}
    (hmove : (verifyInDomain key ciphertext domain proof context).firstMove supply =
      (.ok (some move), rest)) :
    (verifyInDomain key ciphertext domain proof context).Fits move := by
  rw [firstMove] at hmove
  by_cases hadmissible : proof.isAdmissible key.group ciphertext domain = true
  case neg =>
    rw [if_neg hadmissible] at hmove
    cases hmove
  rw [if_pos hadmissible] at hmove
  obtain ⟨commitments, _, hlift, hmove⟩ := Action.bind_eq_ok_iff.1 hmove
  obtain ⟨hcommitments, rfl⟩ := Action.lift_apply_eq_ok_iff.1 hlift
  rw [Action.pure_eq_ok_iff, Option.some.injEq] at hmove
  obtain ⟨rfl, rfl⟩ := hmove
  obtain ⟨hchallenges, hresponses, _⟩ := MembershipProof.isAdmissible_iff.1 hadmissible
  have heach := forall₂_of_mapM hcommitments
  have hlength : commitments.length = domain.length := by
    rw [← heach.length_eq, List.length_zip, List.length_zip, hchallenges, hresponses, min_self,
      min_self]
  have hsum : key.group.sumQ proof.challenges < key.group.q := by
    rw [Group.sumQ_eq]
    exact Nat.mod_lt _ key.group.q_pos
  refine ⟨⟨rfl, hlength⟩, fun pair hpair => ?_, exists_verdict_ne hsum⟩
  obtain ⟨⟨d, c, s⟩, _, hone⟩ := exists_of_mem_of_forall₂ heach hpair
  exact commitments_lt hone

theorem fits_proveSum {randomness : List Nat}
    (hmove : (proveSum key ciphertexts total randomness context).firstMove supply =
      (.ok (some move), rest)) :
    (proveSum key ciphertexts total randomness context).Fits move := by
  rw [firstMove] at hmove
  obtain ⟨_, _, _, hmove⟩ := Action.bind_eq_ok_iff.1 hmove
  obtain ⟨_, _, _, hmove⟩ := Action.bind_eq_ok_iff.1 hmove
  obtain ⟨_, _, _, hmove⟩ := Action.bind_eq_ok_iff.1 hmove
  obtain ⟨w, _, _, hmove⟩ := Action.bind_eq_ok_iff.1 hmove
  obtain ⟨keyPower, _, hlift, hmove⟩ := Action.bind_eq_ok_iff.1 hmove
  obtain ⟨hpower, rfl⟩ := Action.lift_apply_eq_ok_iff.1 hlift
  rw [Action.pure_eq_ok_iff, Option.some.injEq] at hmove
  obtain ⟨rfl, rfl⟩ := hmove
  rw [key.group.pow_eq_ok (key.group.lt_p_of_isMember key.isMember_h)] at hpower
  cases hpower
  refine ⟨⟨rfl, rfl⟩, ?_, 0, key.group.q_pos, 1, key.group.one_lt_q, ?_⟩
  · rw [List.forall_mem_singleton]
    exact ⟨key.group.powG_lt _, key.group.powMod_lt _ _⟩
  · intro hsame
    cases (SumProof.mk.inj (Answer.sum.inj hsame)).1

theorem fits_verifySum {proof : SumProof}
    (hmove : (verifySum key ciphertexts total proof context).firstMove supply =
      (.ok (some move), rest)) :
    (verifySum key ciphertexts total proof context).Fits move := by
  rw [firstMove] at hmove
  by_cases hadmissible : proof.isAdmissible key.group ciphertexts = true
  case neg =>
    rw [if_neg hadmissible] at hmove
    cases hmove
  rw [if_pos hadmissible] at hmove
  obtain ⟨commitments, _, hlift, hmove⟩ := Action.bind_eq_ok_iff.1 hmove
  obtain ⟨hcommitments, rfl⟩ := Action.lift_apply_eq_ok_iff.1 hlift
  rw [Action.pure_eq_ok_iff, Option.some.injEq] at hmove
  obtain ⟨rfl, rfl⟩ := hmove
  refine ⟨⟨rfl, rfl⟩, ?_, exists_verdict_ne (SumProof.isAdmissible_iff.1 hadmissible).1⟩
  rw [List.forall_mem_singleton]
  exact commitments_lt hcommitments

theorem fits_of_firstMove {call : ProofCall}
    (hmove : call.firstMove supply = (.ok (some move), rest)) : call.Fits move := by
  cases call with
  | proveInDomain => exact fits_proveInDomain hmove
  | verifyInDomain => exact fits_verifyInDomain hmove
  | proveSum => exact fits_proveSum hmove
  | verifySum => exact fits_verifySum hmove

end Moves

/-- The commitments that a call hashes, if it gets that far. -/
def commitments? (call : ProofCall) (supply : Bytes) : Option (List (Nat × Nat)) :=
  (call.firstMove supply).1.toOption.join.map (·.commitments)

section Asked

variable {call : ProofCall} {supply rest : Bytes} {move : Move}

theorem commitments?_eq_some_iff {commitments : List (Nat × Nat)} :
    call.commitments? supply = some commitments ↔
      ∃ move rest, call.firstMove supply = (.ok (some move), rest) ∧
        move.commitments = commitments := by
  rw [commitments?]
  constructor
  · intro hcommitments
    obtain ⟨move, hmove, rfl⟩ := Option.map_eq_some_iff.1 hcommitments
    rcases hfirst : call.firstMove supply with ⟨failure | (_ | found), rest⟩ <;>
      rw [hfirst] at hmove <;> cases hmove
    exact ⟨move, rest, rfl, rfl⟩
  · rintro ⟨move, rest, hmove, rfl⟩
    rw [hmove]
    rfl

theorem run_of_move (hmove : call.firstMove supply = (.ok (some move), rest)) (hash : Hash) :
    call.run hash ⟨supply, .fresh⟩ = (.ok (move.answer
      (Transcript.value hash (call.bytes move.commitments) call.key.group.q)), ⟨rest, .fresh⟩) := by
  have hdraw : Prover.draw call.firstMove ⟨supply, .fresh⟩ = (.ok (some move), ⟨rest, .fresh⟩) := by
    rw [Prover.draw, Action.zoom_apply, hmove]
  rw [run_eq, Action.bind_of_ok hdraw, finish,
    Action.bind_of_ok (Prover.challengeFor_apply hash call.key.group _ _), Action.pure_apply]
  rfl

/-- Without commitments the hash is not used. -/
theorem run_of_no_move (hmove : ∀ move rest, call.firstMove supply ≠ (.ok (some move), rest))
    (hash other : Hash) : call.run hash ⟨supply, .fresh⟩ = call.run other ⟨supply, .fresh⟩ := by
  rw [run_eq, run_eq, Action.bind_apply, Action.bind_apply, Prover.draw, Action.zoom_apply]
  rcases hfirst : call.firstMove supply with ⟨failure | (_ | move), rest⟩
  · rfl
  · rfl
  · exact absurd hfirst (hmove move rest)

/-- A hash that gives a number for some bytes. -/
def giving (bytes : Bytes) (n : Nat) : Hash :=
  fun input => if input = bytes then Bytes.ofNatLE (n + 1) n else []

theorem value_giving (bytes : Bytes) {n modulus : Nat} (hn : n < modulus) :
    Transcript.value (giving bytes n) bytes modulus = n := by
  have hfits : n < 256 ^ (n + 1) := (Nat.lt_succ_self n).trans (Nat.lt_pow_self (by decide))
  rw [Transcript.value, giving, if_pos rfl, Bytes.toNatLE_ofNatLE, Nat.mod_eq_of_lt hfits,
    Nat.mod_eq_of_lt hn]

/-- The bytes that matter are those of the statement and the commitments, and no others. -/
theorem asks_iff {bytes : Bytes} : call.Asks supply bytes ↔
    ∃ commitments, call.commitments? supply = some commitments ∧
      bytes = call.bytes commitments := by
  constructor
  · rintro ⟨hash, other, hagree, hne⟩
    by_cases hmove : ∃ move rest, call.firstMove supply = (.ok (some move), rest)
    · obtain ⟨move, rest, hmove⟩ := hmove
      refine ⟨move.commitments, commitments?_eq_some_iff.2 ⟨move, rest, hmove, rfl⟩, ?_⟩
      by_contra hbytes
      refine hne ?_
      rw [run_of_move hmove, run_of_move hmove, Transcript.value, Transcript.value,
        hagree _ (Ne.symm hbytes)]
    · exact absurd (run_of_no_move (fun move rest h => hmove ⟨move, rest, h⟩) hash other) hne
  · rintro ⟨commitments, hcommitments, rfl⟩
    obtain ⟨move, rest, hmove, rfl⟩ := commitments?_eq_some_iff.1 hcommitments
    obtain ⟨challenge, hchallenge, other, hother, hne⟩ := (fits_of_firstMove hmove).tells
    refine ⟨giving (call.bytes move.commitments) challenge,
      giving (call.bytes move.commitments) other, fun input hinput => ?_, fun hsame => hne ?_⟩
    · rw [giving, giving, if_neg hinput, if_neg hinput]
    · rw [run_of_move hmove, run_of_move hmove, value_giving _ hchallenge,
        value_giving _ hother, Prod.mk.injEq, Except.ok.injEq] at hsame
      exact hsame.1

end Asked

/-- What a call is handed fits into memory, and so do the numbers below its modulus. -/
structure IsAddressable (call : ProofCall) : Prop where
  context : IsFramable call.context
  modulus : IsFramable (Bytes.ofNat call.key.group.p)
  ciphertexts : ∀ ciphertext ∈ call.ciphertexts,
    IsFramable (Bytes.ofNat ciphertext.pad) ∧ IsFramable (Bytes.ofNat ciphertext.data)

/-- The question of a call. -/
def question (call : ProofCall) (move : Move) (hfits : call.Fits move) : Question where
  kind := call.kind
  context := call.context
  key := call.key
  ciphertexts := call.ciphertexts
  values := call.values
  commitments := move.commitments
  shaped := hfits.shaped

theorem isFramable_of_mem_fields {call : ProofCall} (haddressable : call.IsAddressable)
    {move : Move} (hfits : call.Fits move) :
    ∀ field ∈ (call.question move hfits).fields, IsFramable field := by
  have hlabel : IsFramable call.kind.label := by
    cases call.kind <;> decide
  have hreduced {n : Nat} (hn : n ≤ call.key.group.p) : IsFramable (Bytes.ofNat n) :=
    (Bytes.length_ofNat_le hn).trans_lt haddressable.modulus
  have hmember {n : Nat} (hn : call.key.group.isGenerator n = true) : n ≤ call.key.group.p := by
    rw [Group.isGenerator, Bool.and_eq_true] at hn
    exact (call.key.group.lt_p_of_isMember hn.1).le
  intro field hfield
  simp only [Question.fields, question, List.mem_cons, List.mem_append, List.mem_map] at hfield
  rcases hfield with rfl | rfl | rfl | rfl | rfl | rfl | ⟨n, hn, rfl⟩ | ⟨value, _, rfl⟩ |
    ⟨n, ⟨pair, hpair, rfl⟩ | ⟨pair, hpair, rfl⟩, rfl⟩
  · exact hlabel
  · exact haddressable.context
  · exact haddressable.modulus
  · exact hreduced call.key.group.g_lt_p.le
  · exact hreduced (hmember call.key.f_generates)
  · exact hreduced (hmember call.key.h_generates)
  · obtain ⟨ciphertext, hmem, hn⟩ := List.mem_flatMap.1 hn
    obtain ⟨hpad, hdata⟩ := haddressable.ciphertexts ciphertext hmem
    rcases List.mem_pair.1 hn with rfl | rfl
    · exact hpad
    · exact hdata
  · rw [IsFramable, Bytes.length_ofUInt64]
    decide
  · exact hreduced (hfits.reduced pair hpair).1.le
  · exact hreduced (hfits.reduced pair hpair).2.le

end ProofCall

/-- What a proof on a ballot is about. -/
inductive Position where
  | vote (nonce : Bytes) (race candidate : String)
  | total (nonce : Bytes) (race : String)
  deriving DecidableEq

namespace Position

def context : Position → Bytes
  | .vote nonce race candidate => voteContext nonce race candidate
  | .total nonce race => raceContext nonce race

def IsShort : Position → Prop
  | .vote nonce race candidate =>
    Wire.IsShort nonce ∧ Wire.IsShort (Bytes.ofText race) ∧ Wire.IsShort (Bytes.ofText candidate)
  | .total nonce race => Wire.IsShort nonce ∧ Wire.IsShort (Bytes.ofText race)

theorem textField_ne_nil (text : String) : Wire.textField text ≠ [] := by
  intro hnil
  have hlength := Wire.four_le_length_field (Bytes.ofText text)
  rw [show Wire.field (Bytes.ofText text) = [] from hnil] at hlength
  cases hlength

/-- No two positions have the same context. -/
theorem context_inj {position other : Position} (hposition : position.IsShort)
    (hother : other.IsShort) (hsame : position.context = other.context) : position = other := by
  cases position with
  | vote nonce race candidate =>
    obtain ⟨hnonce, hrace, hcandidate⟩ := hposition
    cases other with
    | vote otherNonce otherRace otherCandidate =>
      obtain ⟨hotherNonce, hotherRace, hotherCandidate⟩ := hother
      simp only [context, voteContext, List.append_assoc] at hsame
      obtain ⟨hnonces, hnames⟩ := Wire.field_append_inj hnonce hotherNonce hsame
      obtain ⟨hraces, hlast⟩ := Wire.field_append_inj hrace hotherRace hnames
      obtain ⟨hcandidates, _⟩ :=
        Wire.field_append_inj hcandidate hotherCandidate (congrArg (· ++ []) hlast)
      rw [hnonces, Bytes.ofText_injective hraces, Bytes.ofText_injective hcandidates]
    | total otherNonce otherRace =>
      obtain ⟨hotherNonce, hotherRace⟩ := hother
      simp only [context, voteContext, raceContext, List.append_assoc] at hsame
      obtain ⟨_, hnames⟩ := Wire.field_append_inj hnonce hotherNonce hsame
      obtain ⟨_, hlast⟩ := Wire.field_append_inj hrace hotherRace
        (hnames.trans (List.append_nil _).symm)
      exact absurd hlast (textField_ne_nil candidate)
  | total nonce race =>
    obtain ⟨hnonce, hrace⟩ := hposition
    cases other with
    | vote otherNonce otherRace otherCandidate =>
      obtain ⟨hotherNonce, hotherRace, _⟩ := hother
      simp only [context, voteContext, raceContext, List.append_assoc] at hsame
      obtain ⟨_, hnames⟩ := Wire.field_append_inj hnonce hotherNonce hsame
      obtain ⟨_, hlast⟩ := Wire.field_append_inj hrace hotherRace
        ((List.append_nil _).trans hnames)
      exact absurd hlast.symm (textField_ne_nil otherCandidate)
    | total otherNonce otherRace =>
      obtain ⟨hotherNonce, hotherRace⟩ := hother
      simp only [context, raceContext] at hsame
      obtain ⟨hnonces, hnames⟩ := Wire.field_append_inj hnonce hotherNonce hsame
      obtain ⟨hraces, _⟩ := Wire.field_append_inj hrace hotherRace (congrArg (· ++ []) hnames)
      rw [hnonces, Bytes.ofText_injective hraces]

end Position

namespace ProofCall

variable {call other : ProofCall} {supply drawn : Bytes}

/-- Calls that hash the same bytes have the same question. -/
theorem eq_of_asks (hcall : call.IsAddressable) (hother : other.IsAddressable) {bytes : Bytes}
    (hasks : call.Asks supply bytes) (hasked : other.Asks drawn bytes) :
    call.kind = other.kind ∧ call.context = other.context ∧ call.key = other.key ∧
      call.ciphertexts = other.ciphertexts ∧ call.values = other.values ∧
      ∃ commitments, call.commitments? supply = some commitments ∧
        other.commitments? drawn = some commitments := by
  obtain ⟨commitments, hcommitments, rfl⟩ := asks_iff.1 hasks
  obtain ⟨others, hothers, hbytes⟩ := asks_iff.1 hasked
  obtain ⟨move, _, hmove, rfl⟩ := commitments?_eq_some_iff.1 hcommitments
  obtain ⟨reply, _, hreply, rfl⟩ := commitments?_eq_some_iff.1 hothers
  have hfits := fits_of_firstMove hmove
  have hreplies := fits_of_firstMove hreply
  have hquestion : call.question move hfits = other.question reply hreplies :=
    Question.eq_of_bytes_eq (isFramable_of_mem_fields hcall hfits)
      (isFramable_of_mem_fields hother hreplies) hbytes
  obtain ⟨hkind, hcontext, hkey, hciphertexts, hvalues, hsame⟩ := Question.mk.inj hquestion
  exact ⟨hkind, hcontext, hkey, hciphertexts, hvalues, move.commitments, hcommitments,
    hsame ▸ hothers⟩

/-- Every call of a prover or of a verifier hashes one transcript at most, that of its statement and
    of the commitments of its first move. Calls with the same transcript are of the same kind and
    agree in the context, the key, the ciphertexts, the domain or total and the commitments.
    Contexts of different positions are different, so that no transcript belongs to two of them. -/
theorem transcript_binds (hcall : call.IsAddressable) (hother : other.IsAddressable)
    (supply drawn : Bytes) :
    (∀ hash, call.run hash = Prover.draw call.firstMove >>= call.finish hash) ∧
    (∀ bytes, call.Asks supply bytes ↔ ∃ commitments,
      call.commitments? supply = some commitments ∧ bytes = call.bytes commitments) ∧
    (∀ position place : Position, position.IsShort → place.IsShort →
      position.context = place.context → position = place) ∧
    ∀ bytes, call.Asks supply bytes → other.Asks drawn bytes →
      call.kind = other.kind ∧ call.context = other.context ∧ call.key = other.key ∧
      call.ciphertexts = other.ciphertexts ∧ call.values = other.values ∧
      (∃ commitments, call.commitments? supply = some commitments ∧
        other.commitments? drawn = some commitments) ∧
      ∀ position place : Position, position.IsShort → place.IsShort →
        call.context = position.context → other.context = place.context → position = place := by
  refine ⟨fun hash => run_eq hash call, fun bytes => asks_iff,
    fun position place => Position.context_inj, fun bytes hasks hasked => ?_⟩
  obtain ⟨hkind, hcontext, hkey, hciphertexts, hvalues, hcommitments⟩ :=
    eq_of_asks hcall hother hasks hasked
  refine ⟨hkind, hcontext, hkey, hciphertexts, hvalues, hcommitments, ?_⟩
  intro position place hposition hplace hat hin
  exact Position.context_inj hposition hplace (hat.symm.trans (hcontext.trans hin))

/-- Two verifiers of one sum proof, for the same race on two ballots, hash different bytes. -/
theorem transcript_binds_small :
    let verifier (nonce : Bytes) : ProofCall :=
      .verifySum .small [⟨4, 12⟩] 1 ⟨0, 9⟩ (raceContext nonce "mayor")
    (verifier [7]).IsAddressable ∧ (verifier [8]).IsAddressable ∧
      (∃ bytes, (verifier [7]).Asks [] bytes) ∧
      ∀ bytes, (verifier [7]).Asks [] bytes → ¬ (verifier [8]).Asks [] bytes := by
  intro verifier
  have hseven : (verifier [7]).IsAddressable := ⟨by decide, by decide, by decide⟩
  have height : (verifier [8]).IsAddressable := ⟨by decide, by decide, by decide⟩
  obtain ⟨_, hasks, _, hbinds⟩ := transcript_binds hseven height [] []
  refine ⟨hseven, height, ?_, fun bytes hseventh heighth => ?_⟩
  · have hsome : ((verifier [7]).commitments? []).isSome = true := by decide
    obtain ⟨commitments, hcommitments⟩ := Option.isSome_iff_exists.1 hsome
    exact ⟨_, (hasks _).2 ⟨commitments, hcommitments, rfl⟩⟩
  · obtain ⟨_, _, _, _, _, _, hposition⟩ := hbinds bytes hseventh heighth
    have hsame := hposition (.total [7] "mayor") (.total [8] "mayor") ⟨by decide, by decide⟩
      ⟨by decide, by decide⟩ rfl rfl
    exact absurd hsame (by decide)

end ProofCall

end SecretBallot
