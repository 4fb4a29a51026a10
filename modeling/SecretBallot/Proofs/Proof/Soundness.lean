import Mathlib
import SecretBallot.Proofs.Ciphertext
import SecretBallot.Proofs.Proof.Membership
import SecretBallot.Proofs.Proof.Sum

namespace SecretBallot

namespace Ciphertext

variable {key : PublicKey} {ciphertext : Ciphertext}

/-- With the element of the key and the ciphertext as powers of the generator, an encryption and the
    commitments are arithmetic of exponents. -/
theorem encrypt_powG {x : Nat} (hx : key.group.powG x = key.h) (m r : Nat) :
    encrypt key m r = .ok ⟨key.group.powG r, key.group.powG (x * r + m)⟩ := by
  rw [encrypt_eq, ← hx, Group.powMod_powG, Group.mul_powG]

theorem commitmentPair_powG {x : Nat} (hx : key.group.powG x = key.h) (pad data : Nat) (d : UInt64)
    (c s : Nat) :
    (⟨key.group.powG pad, key.group.powG data⟩ : Ciphertext).commitmentPair key d c s =
      (key.group.powG (s + pad * key.group.negQ c),
        key.group.powG (x * s + (data + key.group.negQ d.toNat) * key.group.negQ c)) := by
  simp only [commitmentPair, ← hx, Group.powMod_powG, Group.mul_powG]

section Safe

variable (hsafe : key.group.IsSafe)

include hsafe

/-- Two answers to different challenges with the same commitments open the ciphertext. -/
theorem exists_encrypt_of_commitmentPair_eq (hformed : ciphertext.isWellFormed key.group = true)
    {d : UInt64} {c s c' s' : Nat} (hchallenges : (c : ZMod key.group.q) ≠ c')
    (hcommitments : ciphertext.commitmentPair key d c s = ciphertext.commitmentPair key d c' s') :
    ∃ r < key.group.q, encrypt key d.toNat r = .ok ciphertext := by
  have := Fact.mk hsafe.prime_q
  rw [isWellFormed, Bool.and_eq_true] at hformed
  obtain ⟨x, _, hx⟩ := Group.exists_powG_eq hsafe key.isMember_h
  obtain ⟨r, hr, hpad⟩ := Group.exists_powG_eq hsafe hformed.1
  obtain ⟨e, _, hdata⟩ := Group.exists_powG_eq hsafe hformed.2
  obtain rfl : (⟨key.group.powG r, key.group.powG e⟩ : Ciphertext) = ciphertext := by
    rw [hpad, hdata]
  rw [commitmentPair_powG hx, commitmentPair_powG hx, Prod.mk.injEq, Group.powG_eq_powG_iff hsafe,
    Group.powG_eq_powG_iff hsafe] at hcommitments
  push_cast [Group.cast_negQ] at hcommitments
  obtain ⟨hfirst, hsecond⟩ := hcommitments
  have hdifference : (c : ZMod key.group.q) - c' ≠ 0 := sub_ne_zero.2 hchallenges
  -- The first commitments give the difference of the responses, the second ones then the plaintext.
  have hresponses : (s : ZMod key.group.q) - s' = r * (c - c') := by
    linear_combination hfirst
  have hexponent : ((x * r + d.toNat : Nat) : ZMod key.group.q) = e := by
    refine mul_right_cancel₀ hdifference ?_
    push_cast
    linear_combination hsecond - (x : ZMod key.group.q) * hresponses
  refine ⟨r, hr, ?_⟩
  rw [encrypt_powG hx, (Group.powG_eq_powG_iff hsafe).2 hexponent]

/-- A ciphertext encrypts one plaintext only, modulo `q`. -/
theorem modEq_of_encrypt_eq {m n r s : Nat} (hm : encrypt key m r = .ok ciphertext)
    (hn : encrypt key n s = .ok ciphertext) : m ≡ n [MOD key.group.q] := by
  obtain ⟨x, _, hx⟩ := Group.exists_powG_eq hsafe key.isMember_h
  rw [encrypt_powG hx, Except.ok.injEq] at hm hn
  have hsame := hm.trans hn.symm
  rw [Ciphertext.mk.injEq, Group.powG_eq_powG_iff hsafe, Group.powG_eq_powG_iff hsafe] at hsame
  push_cast at hsame
  obtain ⟨hrandomness, hexponent⟩ := hsame
  rw [← ZMod.natCast_eq_natCast_iff]
  linear_combination hexponent - (x : ZMod key.group.q) * hrandomness

end Safe

end Ciphertext

namespace MembershipProof

variable {key : PublicKey} {ciphertext : Ciphertext} {domain : List UInt64}
  {commitments : List (Nat × Nat)} {proof other : MembershipProof} {challenge another : Nat}

/-- Proofs that answer for the same commitments have the same commitments in every branch. -/
theorem Answers.commitmentPair_eq
    (hproof : proof.Answers key ciphertext domain commitments challenge)
    (hother : other.Answers key ciphertext domain commitments another) {i : Nat}
    (hi : i < domain.length) (hc : i < proof.challenges.length) (hs : i < proof.responses.length)
    (hc' : i < other.challenges.length) (hs' : i < other.responses.length) :
    ciphertext.commitmentPair key domain[i] proof.challenges[i] proof.responses[i] =
      ciphertext.commitmentPair key domain[i] other.challenges[i] other.responses[i] := by
  have hpad := Ciphertext.pad_lt_of_isWellFormed (isAdmissible_iff.1 hproof.admissible).2.2.2
  have hfirst := (verifierCommitments_eq hpad _ _).symm.trans hproof.commitments_eq
  have hsecond := (verifierCommitments_eq hpad _ _).symm.trans hother.commitments_eq
  have hlists := Except.ok.inj (hfirst.trans hsecond.symm)
  have hbranch : i < (domain.zip (proof.challenges.zip proof.responses)).length := by
    simp only [List.length_zip]
    omega
  have hpairs := List.getElem_of_eq hlists (by rwa [List.length_map] : i < (List.map _ _).length)
  simpa only [List.getElem_map, List.getElem_zip] using hpairs

/-- Some branch has two challenges, and it opens the ciphertext to the value of this branch. -/
theorem Answers.exists_encrypt (hsafe : key.group.IsSafe)
    (hproof : proof.Answers key ciphertext domain commitments challenge)
    (hother : other.Answers key ciphertext domain commitments another)
    (hne : challenge ≠ another) :
    ∃ d ∈ domain, ∃ r < key.group.q, Ciphertext.encrypt key d.toNat r = .ok ciphertext := by
  obtain ⟨hlength, hresponses, hreduced, hformed⟩ := isAdmissible_iff.1 hproof.admissible
  obtain ⟨hlength', hresponses', hreduced', _⟩ := isAdmissible_iff.1 hother.admissible
  have hlists : proof.challenges ≠ other.challenges := by
    intro heq
    exact hne (by rw [← hproof.sum_eq, ← hother.sum_eq, heq])
  obtain ⟨i, hc, hc', hdiffer⟩ : ∃ i, ∃ (hc : i < proof.challenges.length)
      (hc' : i < other.challenges.length), proof.challenges[i] ≠ other.challenges[i] := by
    by_contra! hall
    exact hlists (List.ext_getElem (hlength.trans hlength'.symm) hall)
  have hi : i < domain.length := hlength ▸ hc
  have hpairs := hproof.commitmentPair_eq hother hi hc (hresponses ▸ hi) hc' (hresponses' ▸ hi)
  have hcast : ((proof.challenges[i] : Nat) : ZMod key.group.q) ≠ (other.challenges[i] : Nat) := by
    intro hcast
    refine hdiffer (key.group.eq_of_castQ_eq (hreduced _ ?_) (hreduced' _ ?_) hcast)
    · exact List.mem_append_left _ (List.getElem_mem hc)
    · exact List.mem_append_left _ (List.getElem_mem hc')
  exact ⟨domain[i], List.getElem_mem hi,
    Ciphertext.exists_encrypt_of_commitmentPair_eq hsafe hformed hcast hpairs⟩

/-- Two proofs that answer different challenges for the same commitments show that the ciphertext
    encrypts a value of the domain. So if it encrypts none, no commitments leave more than one
    challenge that can be answered. -/
theorem encrypts_of_two_answers (hsafe : key.group.IsSafe) (ciphertext : Ciphertext)
    (domain : List UInt64) (commitments : List (Nat × Nat)) :
    (∀ (proof other : MembershipProof) (challenge another : Nat),
      proof.Answers key ciphertext domain commitments challenge →
        other.Answers key ciphertext domain commitments another → challenge ≠ another →
          ∃ d ∈ domain, ∃ r < key.group.q, Ciphertext.encrypt key d.toNat r = .ok ciphertext) ∧
    ((∀ d ∈ domain, ∀ r < key.group.q, Ciphertext.encrypt key d.toNat r ≠ .ok ciphertext) →
      {challenge | ∃ proof : MembershipProof,
        proof.Answers key ciphertext domain commitments challenge}.Subsingleton) := by
  refine ⟨fun proof other challenge another hproof hother hne =>
    hproof.exists_encrypt hsafe hother hne, ?_⟩
  rintro hnone challenge ⟨proof, hproof⟩ another ⟨other, hother⟩
  by_contra hne
  obtain ⟨d, hd, r, hr, hencrypt⟩ := hproof.exists_encrypt hsafe hother hne
  exact hnone d hd r hr hencrypt

/-- Two proofs for one ciphertext that agree but in the branch of the value that it encrypts. -/
theorem encrypts_of_two_answers_small :
    let ciphertext : Ciphertext := ⟨16, 13⟩
    let commitments := [(13, 1), (8, 2)]
    MembershipProof.Answers ⟨[3, 5], [4, 6]⟩ PublicKey.small ciphertext [0, 1] commitments 8 ∧
      MembershipProof.Answers ⟨[3, 8], [4, 1]⟩ PublicKey.small ciphertext [0, 1] commitments 0 ∧
      ∃ d ∈ ([0, 1] : List UInt64), ∃ r < 11,
        Ciphertext.encrypt PublicKey.small d.toNat r = .ok ciphertext := by
  intro ciphertext commitments
  have hproof : MembershipProof.Answers ⟨[3, 5], [4, 6]⟩ PublicKey.small ciphertext [0, 1]
      commitments 8 := ⟨by decide, by decide, by decide⟩
  have hother : MembershipProof.Answers ⟨[3, 8], [4, 1]⟩ PublicKey.small ciphertext [0, 1]
      commitments 0 := ⟨by decide, by decide, by decide⟩
  exact ⟨hproof, hother, (encrypts_of_two_answers Group.small_isSafe ciphertext [0, 1]
    commitments).1 _ _ _ _ hproof hother (by decide)⟩

end MembershipProof

namespace SumProof

variable {key : PublicKey}

/-- Two sum proofs with different challenges for the same commitments show that the product of the
    ciphertexts encrypts the total. So whatever each ciphertext encrypts, the plaintexts sum to the
    total modulo `q`. -/
theorem total_of_two_answers (hsafe : key.group.IsSafe) {ciphertexts : List Ciphertext}
    {total : UInt64} {proof other : SumProof} {commitments : Nat × Nat}
    (hproof : proof.Answers key ciphertexts total commitments)
    (hother : other.Answers key ciphertexts total commitments)
    (hne : proof.challenge ≠ other.challenge) :
    (∃ r < key.group.q, Ciphertext.encrypt key total.toNat r =
      .ok (Ciphertext.combineAll key.group ciphertexts)) ∧
    ∀ openings : List (Nat × Nat), Ciphertext.AreEncryptions key openings ciphertexts →
      (openings.map (·.1)).sum ≡ total.toNat [MOD key.group.q] := by
  obtain ⟨hlt, _, hformed⟩ := isAdmissible_iff.1 hproof.admissible
  obtain ⟨hlt', _, _⟩ := isAdmissible_iff.1 hother.admissible
  have hcommitments := hproof.commitments_eq.trans hother.commitments_eq.symm
  rw [verifierCommitments_eq, verifierCommitments_eq, Except.ok.injEq] at hcommitments
  obtain ⟨r, hr, hencrypt⟩ := Ciphertext.exists_encrypt_of_commitmentPair_eq hsafe
    (Ciphertext.isWellFormed_combineAll hformed)
    (fun hcast => hne (key.group.eq_of_castQ_eq hlt hlt' hcast)) hcommitments
  refine ⟨⟨r, hr, hencrypt⟩, fun openings hopenings => ?_⟩
  exact Ciphertext.modEq_of_encrypt_eq hsafe (Ciphertext.encrypt_sum hopenings) hencrypt

/-- Two proofs that a vote for and a vote against sum to one. -/
theorem total_of_two_answers_small :
    let ciphertexts : List Ciphertext := [⟨16, 13⟩, ⟨18, 4⟩]
    SumProof.Answers ⟨5, 10⟩ PublicKey.small ciphertexts 1 (8, 2) ∧
      SumProof.Answers ⟨8, 3⟩ PublicKey.small ciphertexts 1 (8, 2) ∧
      (∃ r < 11, Ciphertext.encrypt PublicKey.small 1 r =
        .ok (Ciphertext.combineAll Group.small ciphertexts)) ∧
      Ciphertext.AreEncryptions PublicKey.small [(1, 2), (0, 3)] ciphertexts ∧
      1 + 0 ≡ 1 [MOD 11] := by
  intro ciphertexts
  have hproof : SumProof.Answers ⟨5, 10⟩ PublicKey.small ciphertexts 1 (8, 2) :=
    ⟨by decide, by decide⟩
  have hother : SumProof.Answers ⟨8, 3⟩ PublicKey.small ciphertexts 1 (8, 2) :=
    ⟨by decide, by decide⟩
  have hopenings : Ciphertext.AreEncryptions PublicKey.small [(1, 2), (0, 3)] ciphertexts :=
    .cons (by decide) (.cons (by decide) .nil)
  obtain ⟨hproduct, hsum⟩ :=
    total_of_two_answers Group.small_isSafe hproof hother (by decide)
  exact ⟨hproof, hother, hproduct, hopenings, hsum _ hopenings⟩

end SumProof

end SecretBallot
