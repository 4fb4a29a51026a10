import Mathlib
import SecretBallot.Ballot.Open
import SecretBallot.Proofs.Proof.Statement

namespace SecretBallot

namespace MembershipProof

theorem isAdmissible_iff {proof : MembershipProof} {group : Group} {ciphertext : Ciphertext}
    {domain : List UInt64} : proof.isAdmissible group ciphertext domain = true ↔
      proof.challenges.length = domain.length ∧ proof.responses.length = domain.length ∧
        (∀ n ∈ proof.challenges ++ proof.responses, n < group.q) ∧
        ciphertext.isWellFormed group = true := by
  simp only [isAdmissible, Bool.and_eq_true, beq_iff_eq, List.all_eq_true, decide_eq_true_eq,
    and_assoc]

/-- The verifier can always compute its commitments for a reduced ciphertext. -/
theorem verifierCommitments_eq {key : PublicKey} {ciphertext : Ciphertext}
    (hpad : ciphertext.pad < key.group.p) (proof : MembershipProof) (domain : List UInt64) :
    proof.verifierCommitments key ciphertext domain =
      .ok ((domain.zip (proof.challenges.zip proof.responses)).map fun entry =>
        ciphertext.commitmentPair key entry.1 entry.2.1 entry.2.2) :=
  mapM_eq_ok fun entry _ => Ciphertext.commitments_eq hpad entry.1 entry.2.1 entry.2.2

/-- So can the prover that has a branch for every value. -/
theorem proverCommitments_eq {key : PublicKey} {ciphertext : Ciphertext}
    (hpad : ciphertext.pad < key.group.p) {domain : List UInt64} (real w : Nat)
    {branches : List (Nat × Nat)} (hlength : branches.length = domain.length) :
    proverCommitments key ciphertext domain real w branches =
      .ok ((domain.zip branches).zipIdx.map fun entry =>
        if entry.2 = real then (key.group.powG w, powMod key.h w key.group.p)
        else ciphertext.commitmentPair key entry.1.1 entry.1.2.1 entry.1.2.2) := by
  have hh : key.h < key.group.p := key.group.lt_p_of_isMember key.isMember_h
  refine mapM_of_forall₂ (List.forall₂_iff_get.2 ⟨?_, fun i hi hpair => ?_⟩)
  · rw [List.length_map, List.length_zipIdx, List.length_zipIdx, List.length_zip, hlength, min_self]
  · rw [List.length_zipIdx] at hi
    have hbranch : entryAt branches i = .ok branches[i] :=
      entryAt_eq_ok_iff.2 (List.getElem?_eq_getElem (hlength ▸ hi))
    simp only [List.get_eq_getElem, List.getElem_map, List.getElem_zipIdx, List.getElem_zip,
      Nat.zero_add]
    by_cases hreal : i = real
    · rw [if_pos hreal, if_pos hreal, key.group.pow_eq_ok hh]
      rfl
    · rw [if_neg hreal, if_neg hreal, hbranch, ok_bind, Ciphertext.commitments_eq hpad]

/-- A proof answers a challenge for given commitments: it is admissible, a verifier recomputes these
    commitments from it, and its challenges sum to the one that is asked. -/
structure Answers (proof : MembershipProof) (key : PublicKey) (ciphertext : Ciphertext)
    (domain : List UInt64) (commitments : List (Nat × Nat)) (challenge : Nat) : Prop where
  admissible : proof.isAdmissible key.group ciphertext domain = true
  commitments_eq : proof.verifierCommitments key ciphertext domain = .ok commitments
  sum_eq : key.group.sumQ proof.challenges = challenge

/-- The verifier accepts exactly the proofs that answer the hash of their own commitments. -/
theorem verifyInDomain_eq_true_iff {hash : Hash} {key : PublicKey} {ciphertext : Ciphertext}
    {domain : List UInt64} {proof : MembershipProof} {context : Bytes} :
    Transcript.onFresh (verifyInDomain hash key ciphertext domain proof context) = .ok true ↔
      ∃ commitments, proof.Answers key ciphertext domain commitments
        (Transcript.value hash (transcript context key ciphertext domain commitments)
          key.group.q) := by
  rw [Transcript.onFresh, verifyInDomain]
  by_cases hadmissible : proof.isAdmissible key.group ciphertext domain = true
  · have hpad := Ciphertext.pad_lt_of_isWellFormed (isAdmissible_iff.1 hadmissible).2.2.2
    have hcommitments := verifierCommitments_eq hpad proof domain
    rw [if_pos hadmissible, Action.lift_bind_apply, hcommitments]
    dsimp only
    rw [Action.bind_of_ok (Transcript.challengeFor_fresh hash key.group _), Action.pure_apply,
      Except.ok.injEq, beq_iff_eq]
    constructor
    · intro hsum
      exact ⟨_, hadmissible, hcommitments, hsum.symm⟩
    · rintro ⟨commitments, hanswers⟩
      obtain rfl := Except.ok.inj (hcommitments.symm.trans hanswers.commitments_eq)
      exact hanswers.sum_eq.symm
  · rw [if_neg hadmissible, Action.pure_apply]
    constructor
    · intro hfalse
      cases hfalse
    · rintro ⟨_, hanswers⟩
      exact absurd hanswers.admissible hadmissible

/-- What a prover has drawn for its branches: nothing for the real one, reduced exponents for the
    others. -/
structure Drawn (group : Group) (real count : Nat) (branches : List (Nat × Nat)) : Prop where
  length_eq : branches.length = count
  real_eq : ∀ h : real < branches.length, branches[real] = (0, 0)
  reduced : ∀ branch ∈ branches, branch.1 < group.q ∧ branch.2 < group.q

theorem completes_drawBranches (group : Group) (real count : Nat) (supply : Bytes) :
    (drawBranches group real count).Completes supply fun branches _ =>
      Drawn group real count branches := by
  have hbranch (i : Nat) (supply : Bytes) :
      (if i = real then pure (0, 0)
        else do
          let challenge ← Draw.exponent group
          let response ← Draw.exponent group
          pure (challenge, response) : Draw (Nat × Nat)).Completes supply fun branch _ =>
        ((i = real → branch = (0, 0)) ∧ branch.1 < group.q ∧ branch.2 < group.q) ∧ True := by
    by_cases hreal : i = real
    · rw [if_pos hreal]
      exact Action.completes_pure ⟨⟨fun _ => rfl, group.q_pos, group.q_pos⟩, trivial⟩
    · rw [if_neg hreal]
      refine (Draw.completes_exponent group supply).bind fun challenge between hchallenge => ?_
      refine (Draw.completes_exponent group between).bind fun response reached hresponse => ?_
      exact Action.completes_pure ⟨⟨fun h => absurd h hreal, hchallenge, hresponse⟩, trivial⟩
  refine (Action.completes_mapM (I := fun _ => True)
    (fun i _ supply _ => hbranch i supply) trivial).imp fun branches _ hbranches => ?_
  obtain ⟨hall, _⟩ := hbranches
  refine ⟨?_, fun h => ?_, fun branch hmem => ?_⟩
  · rw [← hall.length_eq, List.length_range]
  · have hlt : real < (List.range count).length := hall.length_eq ▸ h
    exact (hall.get hlt h).1 (List.getElem_range hlt)
  · obtain ⟨_, _, _, hreduced⟩ := exists_of_mem_of_forall₂ hall hmem
    exact hreduced

theorem length_of_drawBranches {group : Group} {real count : Nat} {supply rest : Bytes}
    {branches : List (Nat × Nat)}
    (hrun : drawBranches group real count supply = (.ok branches, rest)) :
    branches.length = count :=
  ((completes_drawBranches group real count supply).of_ok hrun).length_eq

section Complete

variable {key : PublicKey} {ciphertext : Ciphertext} {domain : List UInt64}
  {branches : List (Nat × Nat)} {real w r challenge : Nat}

/-- The challenges sum to the hash, as the real branch takes what the others leave. -/
theorem sumQ_complete (hdrawn : Drawn key.group real domain.length branches)
    (hreal : real < domain.length) (hchallenge : challenge < key.group.q) :
    key.group.sumQ (complete key.group real w r challenge branches).challenges = challenge := by
  have hlt : real < branches.length := hdrawn.length_eq ▸ hreal
  have hreduced : key.group.sumQ (complete key.group real w r challenge branches).challenges <
      key.group.q := by
    rw [Group.sumQ_eq]
    exact Nat.mod_lt _ key.group.q_pos
  refine key.group.eq_of_castQ_eq hreduced hchallenge ?_
  simp only [complete, Group.cast_sumQ, List.map_set, Group.cast_subQ, List.sum_set',
    List.length_map, hlt, dite_true, List.getElem_map, hdrawn.real_eq hlt, Nat.cast_zero]
  ring

theorem length_complete (hdrawn : Drawn key.group real domain.length branches) :
    (complete key.group real w r challenge branches).challenges.length = domain.length ∧
      (complete key.group real w r challenge branches).responses.length = domain.length := by
  simp only [complete, List.length_set, List.length_map, hdrawn.length_eq, and_self]

theorem reduced_complete (hdrawn : Drawn key.group real domain.length branches) :
    ∀ n ∈ (complete key.group real w r challenge branches).challenges ++
      (complete key.group real w r challenge branches).responses, n < key.group.q := by
  intro n hn
  rcases List.mem_append.1 hn with hc | hs
  · rcases List.mem_or_eq_of_mem_set hc with hdrawn' | rfl
    · obtain ⟨branch, hbranch, rfl⟩ := List.mem_map.1 hdrawn'
      exact (hdrawn.reduced branch hbranch).1
    · exact Nat.mod_lt _ key.group.q_pos
  · rcases List.mem_or_eq_of_mem_set hs with hdrawn' | rfl
    · obtain ⟨branch, hbranch, rfl⟩ := List.mem_map.1 hdrawn'
      exact (hdrawn.reduced branch hbranch).2
    · exact Nat.mod_lt _ key.group.q_pos

theorem isAdmissible_complete (hdrawn : Drawn key.group real domain.length branches)
    (hformed : ciphertext.isWellFormed key.group = true) :
    (complete key.group real w r challenge branches).isAdmissible key.group ciphertext domain =
      true :=
  isAdmissible_iff.2 ⟨(length_complete hdrawn).1, (length_complete hdrawn).2,
    reduced_complete hdrawn, hformed⟩

/-- Both sides compute the same commitments. -/
theorem commitments_complete (hdrawn : Drawn key.group real domain.length branches)
    (hreal : real < domain.length)
    (hencrypt : Ciphertext.encrypt key (domain[real]).toNat r = .ok ciphertext) (challenge : Nat) :
    ∃ commitments, proverCommitments key ciphertext domain real w branches = .ok commitments ∧
      (complete key.group real w r challenge branches).verifierCommitments key ciphertext domain =
        .ok commitments := by
  have hpad : ciphertext.pad < key.group.p :=
    Ciphertext.pad_lt_of_isWellFormed (Ciphertext.isWellFormed_of_encrypt hencrypt)
  refine ⟨_, proverCommitments_eq hpad real w hdrawn.length_eq, ?_⟩
  rw [verifierCommitments_eq hpad]
  congr 1
  -- Position by position: the real branch is where the completed proof differs from what was drawn.
  refine List.ext_getElem ?_ fun i hi hdrawn' => ?_
  · simp only [complete, List.length_map, List.length_zip, List.length_set, List.length_zipIdx,
      min_self]
  simp only [complete, List.getElem_map, List.getElem_zip, List.getElem_zipIdx, List.getElem_set,
    Nat.zero_add]
  by_cases hi' : i = real
  · subst hi'
    simp only [if_true]
    refine Ciphertext.commitmentPair_of_encrypt hencrypt ?_
    rw [Group.cast_addQ, Group.cast_mulQ]
  · simp only [if_neg hi', if_neg (Ne.symm hi')]

/-- A completed proof verifies. -/
theorem verifyInDomain_complete {hash : Hash} {context : Bytes}
    (hdrawn : Drawn key.group real domain.length branches) (hreal : real < domain.length)
    (hencrypt : Ciphertext.encrypt key (domain[real]).toNat r = .ok ciphertext)
    {commitments : List (Nat × Nat)}
    (hprover : proverCommitments key ciphertext domain real w branches = .ok commitments)
    (hchallenge : challenge = Transcript.value hash
      (transcript context key ciphertext domain commitments) key.group.q) :
    Transcript.onFresh (verifyInDomain hash key ciphertext domain
      (complete key.group real w r challenge branches) context) = .ok true := by
  have hlt : challenge < key.group.q := by
    rw [hchallenge]
    exact Nat.mod_lt _ key.group.q_pos
  obtain ⟨_, hcommitments, hverifier⟩ :=
    commitments_complete (w := w) hdrawn hreal hencrypt challenge
  obtain rfl := Except.ok.inj (hprover.symm.trans hcommitments)
  refine verifyInDomain_eq_true_iff.2 ⟨commitments, ?_, hverifier, ?_⟩
  · exact isAdmissible_complete hdrawn (Ciphertext.isWellFormed_of_encrypt hencrypt)
  · rw [sumQ_complete hdrawn hreal hlt, hchallenge]

end Complete

/-- A value of the domain is proved as long as random bytes are left, and the proof verifies. -/
theorem completes_proveInDomain (hash : Hash) {key : PublicKey} {ciphertext : Ciphertext}
    {domain : List UInt64} {m : UInt64} (hm : m ∈ domain) {r : Nat}
    (hencrypt : Ciphertext.encrypt key m.toNat r = .ok ciphertext) (context : Bytes)
    {prover : Prover} (hfresh : prover.transcript = .fresh) :
    (proveInDomain hash key ciphertext domain m r context).Completes prover fun proof reached =>
      (proof.responses.length = proof.challenges.length ∧
        Transcript.onFresh (verifyInDomain hash key ciphertext domain proof context) = .ok true) ∧
        reached.transcript = .fresh := by
  cases hfind : domain.findIdx? (· == m) with
  | none =>
    have hne := List.findIdx?_eq_none_iff.1 hfind m hm
    rw [beq_self_eq_true] at hne
    cases hne
  | some real =>
    obtain ⟨hreal, hvalue, _⟩ := List.findIdx?_eq_some_iff_getElem.1 hfind
    obtain rfl := eq_of_beq hvalue
    rw [proveInDomain, hfind]
    dsimp only
    refine .lift_bind hencrypt (.ensure_bind rfl ?_)
    refine (Prover.completes_draw (Draw.completes_exponent key.group) hfresh).bind ?_
    rintro w between ⟨_, hbetween⟩
    refine (Prover.completes_draw (completes_drawBranches key.group real domain.length)
      hbetween).bind ?_
    rintro branches drawn ⟨hdrawn, hfresh⟩
    obtain ⟨commitments, hcommitments, _⟩ := commitments_complete (w := w) hdrawn hreal hencrypt 0
    refine .lift_bind (require_of _ (hdrawn.length_eq ▸ hreal)) (.lift_bind hcommitments ?_)
    refine (Prover.completes_challengeFor hash key.group _ hfresh).bind ?_
    rintro challenge reached ⟨rfl, hreached⟩
    refine Action.completes_pure ⟨⟨?_, ?_⟩, hreached⟩
    · simp only [complete, List.length_set, List.length_map]
    · exact verifyInDomain_complete hdrawn hreal hencrypt hcommitments rfl

end MembershipProof

end SecretBallot
