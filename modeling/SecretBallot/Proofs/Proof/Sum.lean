import Mathlib
import SecretBallot.Ballot.Open
import SecretBallot.Proofs.Proof.Statement

namespace SecretBallot

namespace Ciphertext

variable {key : PublicKey}

/-- A plaintext matters as an exponent of the generator, and the randomness modulo `q`. -/
theorem encrypt_congr {m n r s : Nat} (hplaintext : key.group.powG m = key.group.powG n)
    (hrandomness : (r : ZMod key.group.q) = s) : encrypt key m r = encrypt key n s := by
  have hmask : powMod key.h r key.group.p = powMod key.h s key.group.p := by
    apply key.group.eq_of_cast_eq (key.group.powMod_lt _ _) (key.group.powMod_lt _ _)
    rw [Group.cast_powMod, Group.cast_powMod,
      key.group.pow_congr (key.group.isMember_iff.1 key.isMember_h).2 hrandomness]
  rw [encrypt_eq, encrypt_eq, hplaintext, key.group.powG_congr hrandomness, hmask]

/-- Under one randomness, what is encrypted to the same is the same plaintext. -/
theorem powG_eq_of_encrypt {m n r : Nat} (hencrypt : encrypt key m r = encrypt key n r) :
    key.group.powG m = key.group.powG n := by
  have hmask : key.group.isMember (powMod key.h r key.group.p) = true :=
    key.group.isMember_powMod key.isMember_h r
  rw [encrypt_eq, encrypt_eq, Except.ok.injEq, Ciphertext.mk.injEq] at hencrypt
  have hm := key.group.div_mul hmask (key.group.powG_lt m)
  rw [hencrypt.2, key.group.div_mul hmask (key.group.powG_lt n)] at hm
  exact (Except.ok.inj hm).symm

theorem exists_encrypt (key : PublicKey) (m r : Nat) :
    ∃ ciphertext, encrypt key m r = .ok ciphertext :=
  ⟨_, encrypt_eq key m r⟩

theorem encrypt_zero (key : PublicKey) : encrypt key 0 0 = .ok identity := by
  have hmask : powMod key.h 0 key.group.p = 1 := by
    rw [powMod_eq, pow_zero, Nat.mod_eq_of_lt key.group.one_lt_p]
  have hdata : key.group.mul 1 1 = 1 := Nat.mod_eq_of_lt key.group.one_lt_p
  rw [encrypt_eq, Group.powG_zero, hmask, hdata, identity]

/-- The product of two encryptions encrypts the sums. -/
theorem encrypt_add {m n r s : Nat} {a b : Ciphertext} (ha : encrypt key m r = .ok a)
    (hb : encrypt key n s = .ok b) :
    encrypt key (m + n) (r + s) = .ok (combine key.group a b) := by
  rw [encrypt_eq, Except.ok.injEq] at ha hb
  subst ha hb
  rw [encrypt_eq, combine, Except.ok.injEq, Ciphertext.mk.injEq]
  constructor
  · exact (key.group.mul_powG r s).symm
  · apply key.group.eq_of_cast_eq (key.group.mul_lt _ _) (key.group.mul_lt _ _)
    simp only [Group.cast_mul, Group.cast_powMod, Group.cast_powG, pow_add]
    ring

/-- The ciphertexts are made of the given plaintexts and randomness. -/
def AreEncryptions (key : PublicKey) (openings : List (Nat × Nat))
    (ciphertexts : List Ciphertext) : Prop :=
  List.Forall₂ (fun opening ciphertext => encrypt key opening.1 opening.2 = .ok ciphertext)
    openings ciphertexts

/-- A product of encryptions encrypts the sums. -/
theorem encrypt_sum {openings : List (Nat × Nat)} {ciphertexts : List Ciphertext}
    (hencrypts : AreEncryptions key openings ciphertexts) :
    encrypt key (openings.map (·.1)).sum (openings.map (·.2)).sum =
      .ok (combineAll key.group ciphertexts) := by
  -- The product so far is an encryption at every step of the fold.
  have hfold {m r : Nat} {start : Ciphertext} (hstart : encrypt key m r = .ok start) :
      encrypt key (m + (openings.map (·.1)).sum) (r + (openings.map (·.2)).sum) =
        .ok (ciphertexts.foldl (combine key.group) start) := by
    induction hencrypts generalizing m r start with
    | nil => exact hstart
    | cons hhead _ ih =>
      rw [List.map_cons, List.map_cons, List.sum_cons, List.sum_cons, ← Nat.add_assoc,
        ← Nat.add_assoc]
      exact ih (encrypt_add hstart hhead)
  have hproduct := hfold (encrypt_zero key)
  rwa [Nat.zero_add, Nat.zero_add] at hproduct

/-- The product of encryptions encrypts a total under the sum of their randomness exactly if the
    plaintexts sum to this total in the exponent. -/
theorem encrypt_eq_combineAll_iff {openings : List (Nat × Nat)} {ciphertexts : List Ciphertext}
    (hencrypts : AreEncryptions key openings ciphertexts) (total : Nat) :
    encrypt key total (key.group.sumQ (openings.map (·.2))) =
        .ok (combineAll key.group ciphertexts) ↔
      key.group.powG (openings.map (·.1)).sum = key.group.powG total := by
  have hreduced : ((key.group.sumQ (openings.map (·.2)) : Nat) : ZMod key.group.q) =
      ((openings.map (·.2)).sum : Nat) := by
    rw [Group.sumQ_eq, ZMod.natCast_mod]
  rw [← encrypt_sum hencrypts, ← encrypt_congr rfl hreduced]
  exact ⟨fun hencrypt => (powG_eq_of_encrypt hencrypt).symm,
    fun htotal => encrypt_congr htotal.symm rfl⟩

theorem AreEncryptions.isWellFormed {openings : List (Nat × Nat)} {ciphertexts : List Ciphertext}
    (hencrypts : AreEncryptions key openings ciphertexts) :
    ∀ ciphertext ∈ ciphertexts, ciphertext.isWellFormed key.group = true := by
  intro ciphertext hmem
  obtain ⟨_, _, hencrypt⟩ := exists_of_mem_of_forall₂ hencrypts hmem
  exact isWellFormed_of_encrypt hencrypt

end Ciphertext

namespace SumProof

variable {key : PublicKey} {ciphertexts : List Ciphertext} {total : UInt64} {r w : Nat}

theorem isAdmissible_iff {proof : SumProof} {group : Group} :
    proof.isAdmissible group ciphertexts = true ↔
      proof.challenge < group.q ∧ proof.response < group.q ∧
        ∀ ciphertext ∈ ciphertexts, ciphertext.isWellFormed group = true := by
  simp only [isAdmissible, Bool.and_eq_true, decide_eq_true_eq, List.all_eq_true, and_assoc]

/-- The verifier can always compute its commitments. -/
theorem verifierCommitments_eq (proof : SumProof) (key : PublicKey) (ciphertexts : List Ciphertext)
    (total : UInt64) : proof.verifierCommitments key ciphertexts total =
      .ok ((Ciphertext.combineAll key.group ciphertexts).commitmentPair key total proof.challenge
        proof.response) := by
  refine Ciphertext.commitments_eq ?_ _ _ _
  rw [Ciphertext.combineAll_eq]
  exact key.group.product_lt _

/-- A proof answers its challenge for given commitments: it is admissible, and a verifier recomputes
    these commitments from it. -/
structure Answers (proof : SumProof) (key : PublicKey) (ciphertexts : List Ciphertext)
    (total : UInt64) (commitments : Nat × Nat) : Prop where
  admissible : proof.isAdmissible key.group ciphertexts = true
  commitments_eq : proof.verifierCommitments key ciphertexts total = .ok commitments

/-- The verifier accepts exactly the proofs whose challenge is the hash of their own commitments. -/
theorem verify_eq_true_iff {hash : Hash} {proof : SumProof} {context : Bytes} :
    Transcript.onFresh (verify hash key ciphertexts total proof context) = .ok true ↔
      ∃ commitments, proof.Answers key ciphertexts total commitments ∧
        proof.challenge = Transcript.value hash
          (transcript context key ciphertexts total commitments) key.group.q := by
  rw [Transcript.onFresh, verify]
  by_cases hadmissible : proof.isAdmissible key.group ciphertexts = true
  · have hcommitments := verifierCommitments_eq proof key ciphertexts total
    rw [if_pos hadmissible, Action.lift_bind_apply, hcommitments]
    dsimp only
    rw [Action.bind_of_ok (Transcript.challengeFor_fresh hash key.group _), Action.pure_apply,
      Except.ok.injEq, beq_iff_eq]
    constructor
    · intro hchallenge
      exact ⟨_, ⟨hadmissible, hcommitments⟩, hchallenge.symm⟩
    · rintro ⟨commitments, hanswers, hchallenge⟩
      obtain rfl := Except.ok.inj (hcommitments.symm.trans hanswers.commitments_eq)
      exact hchallenge.symm
  · rw [if_neg hadmissible, Action.pure_apply]
    constructor
    · intro hfalse
      cases hfalse
    · rintro ⟨_, hanswers, _⟩
      exact absurd hanswers.admissible hadmissible

/-- A response that answers the challenge verifies. -/
theorem verify_complete {hash : Hash} {context : Bytes}
    (hformed : ∀ ciphertext ∈ ciphertexts, ciphertext.isWellFormed key.group = true)
    (hencrypt : Ciphertext.encrypt key total.toNat r =
      .ok (Ciphertext.combineAll key.group ciphertexts)) {challenge : Nat}
    (hchallenge : challenge = Transcript.value hash (transcript context key ciphertexts total
      (key.group.powG w, powMod key.h w key.group.p)) key.group.q) :
    Transcript.onFresh (verify hash key ciphertexts total
      ⟨challenge, key.group.addQ w (key.group.mulQ challenge r)⟩ context) = .ok true := by
  let proof : SumProof := ⟨challenge, key.group.addQ w (key.group.mulQ challenge r)⟩
  have hlt : challenge < key.group.q := by
    rw [hchallenge]
    exact Nat.mod_lt _ key.group.q_pos
  have hresponse : proof.response < key.group.q := Nat.mod_lt _ key.group.q_pos
  have hcommitments : proof.verifierCommitments key ciphertexts total =
      .ok (key.group.powG w, powMod key.h w key.group.p) := by
    rw [verifierCommitments_eq]
    refine congrArg _ (Ciphertext.commitmentPair_of_encrypt hencrypt ?_)
    rw [Group.cast_addQ, Group.cast_mulQ]
  have hadmissible : proof.isAdmissible key.group ciphertexts = true :=
    isAdmissible_iff.2 ⟨hlt, hresponse, hformed⟩
  exact verify_eq_true_iff.2 ⟨_, ⟨hadmissible, hcommitments⟩, hchallenge⟩

/-- A verifier whose transcript has absorbed something is one whose hash function begins with it. -/
theorem verify_continued (hash : Hash) (proof : SumProof) (context : Bytes) (start : Transcript) :
    (verify hash key ciphertexts total proof context start).1 =
      Transcript.onFresh (verify (fun bytes => hash (start.absorbed ++ bytes)) key ciphertexts total
        proof context) := by
  rw [Transcript.onFresh, verify, verify]
  by_cases hadmissible : proof.isAdmissible key.group ciphertexts = true
  · rw [if_pos hadmissible, if_pos hadmissible, Action.lift_bind_apply, Action.lift_bind_apply,
      verifierCommitments_eq]
    dsimp only
    rw [Action.bind_of_ok (Transcript.challengeFor_apply hash key.group _ start),
      Action.bind_of_ok (Transcript.challengeFor_fresh _ key.group _)]
    rfl
  · rw [if_neg hadmissible, if_neg hadmissible]
    rfl

section Prove

variable (hash : Hash) {randomness : List Nat} (context : Bytes) (prover : Prover)

theorem prove_of_length_ne (total : UInt64)
    (hlength : ciphertexts.length ≠ randomness.length) :
    prove hash key ciphertexts total randomness context prover =
      (.error (.refused (.countMismatch .ciphertexts ciphertexts.length randomness.length)),
        prover) := by
  rw [prove, Action.ensure_bind_apply, if_neg hlength]

/-- A prover that does not open the product refuses, and it has not touched anything by then. -/
theorem prove_of_encrypt_ne (hlength : ciphertexts.length = randomness.length)
    (hencrypt : Ciphertext.encrypt key total.toNat (key.group.sumQ randomness) ≠
      .ok (Ciphertext.combineAll key.group ciphertexts)) :
    prove hash key ciphertexts total randomness context prover =
      (.error (.refused (.invalidSelection (.notTheTotal total))), prover) := by
  obtain ⟨opened, hopened⟩ :=
    Ciphertext.exists_encrypt key total.toNat (key.group.sumQ randomness)
  have hne : opened ≠ Ciphertext.combineAll key.group ciphertexts := by
    rintro rfl
    exact hencrypt hopened
  rw [prove, Action.ensure_bind_apply, if_pos hlength, hopened, Action.lift_bind_apply]
  dsimp only
  rw [Action.ensure_bind_apply, if_neg hne]

variable {context prover} (hlength : ciphertexts.length = randomness.length)
  (hencrypt : Ciphertext.encrypt key total.toNat (key.group.sumQ randomness) =
    .ok (Ciphertext.combineAll key.group ciphertexts)) {rest : Bytes}

include hlength hencrypt

/-- A prover that opens the product draws one exponent and answers the challenge. -/
theorem prove_of_exponent_eq_ok
    (hdraw : Draw.exponent key.group prover.supply = (.ok w, rest)) {challenge : Nat}
    (hchallenge : challenge = Transcript.value hash (prover.transcript.absorbed ++
      transcript context key ciphertexts total
        (key.group.powG w, powMod key.h w key.group.p)) key.group.q) :
    prove hash key ciphertexts total randomness context prover =
      (.ok ⟨challenge, key.group.addQ w (key.group.mulQ challenge (key.group.sumQ randomness))⟩,
        ⟨rest, .fresh⟩) := by
  have hdrawn : Prover.draw (Draw.exponent key.group) prover =
      (.ok w, ⟨rest, prover.transcript⟩) :=
    Action.zoom_eq_ok_iff.2 ⟨rest, hdraw, rfl⟩
  have hpower := key.group.pow_eq_ok (key.group.lt_p_of_isMember key.isMember_h) w
  rw [prove, Action.ensure_bind_apply, if_pos hlength, hencrypt, Action.lift_bind_apply]
  dsimp only
  rw [Action.ensure_bind_apply, if_pos rfl, Action.bind_of_ok hdrawn, hpower,
    Action.lift_bind_apply]
  dsimp only
  rw [Action.bind_of_ok (Prover.challengeFor_apply hash key.group _ _), hchallenge]
  rfl

theorem prove_of_exponent_eq_error {failure : Failure}
    (hdraw : Draw.exponent key.group prover.supply = (.error failure, rest)) :
    prove hash key ciphertexts total randomness context prover =
      (.error failure, ⟨rest, prover.transcript⟩) := by
  have hdrawn : Prover.draw (Draw.exponent key.group) prover =
      (.error failure, ⟨rest, prover.transcript⟩) := by
    rw [Prover.draw, Action.zoom_apply, hdraw]
  rw [prove, Action.ensure_bind_apply, if_pos hlength, hencrypt, Action.lift_bind_apply]
  dsimp only
  rw [Action.ensure_bind_apply, if_pos rfl, Action.bind_apply, hdrawn]

end Prove

/-- Encryptions whose plaintexts sum to the total modulo the order of the generator are proved as
    long as random bytes are left, and the proof verifies on the transcript that the prover used. -/
theorem completes_prove_on (hash : Hash) {openings : List (Nat × Nat)}
    (hencrypts : Ciphertext.AreEncryptions key openings ciphertexts)
    (htotal : key.group.powG (openings.map (·.1)).sum = key.group.powG total.toNat)
    (context : Bytes) (prover : Prover) :
    (prove hash key ciphertexts total (openings.map (·.2)) context).Completes prover
      fun proof reached =>
        (verify hash key ciphertexts total proof context prover.transcript).1 = .ok true ∧
          reached.transcript = .fresh := by
  have hlength : ciphertexts.length = (openings.map (·.2)).length := by
    rw [List.length_map, hencrypts.length_eq]
  have hencrypt := (Ciphertext.encrypt_eq_combineAll_iff hencrypts _).2 htotal
  obtain ⟨w, rest, hdraw, _⟩ | ⟨rest, hdraw⟩ :=
    (Draw.completes_exponent key.group prover.supply).cases
  · refine Action.completes_of_ok (prove_of_exponent_eq_ok hash hlength hencrypt hdraw rfl)
      ⟨?_, rfl⟩
    rw [verify_continued]
    exact verify_complete hencrypts.isWellFormed hencrypt rfl
  · exact Action.completes_of_exhausted (prove_of_exponent_eq_error hash hlength hencrypt hdraw)

theorem completes_prove (hash : Hash) {openings : List (Nat × Nat)}
    (hencrypts : Ciphertext.AreEncryptions key openings ciphertexts)
    (htotal : key.group.powG (openings.map (·.1)).sum = key.group.powG total.toNat)
    (context : Bytes) {prover : Prover} (hfresh : prover.transcript = .fresh) :
    (prove hash key ciphertexts total (openings.map (·.2)) context).Completes prover
      fun proof reached =>
        Transcript.onFresh (verify hash key ciphertexts total proof context) = .ok true ∧
          reached.transcript = .fresh := by
  have hcompletes := completes_prove_on hash hencrypts htotal context prover
  rw [hfresh] at hcompletes
  exact hcompletes

/-- The sum of encryptions is proved exactly if the total is the sum of the plaintexts modulo `q`,
    as soon as the one exponent that this takes can be drawn, and what is proved verifies on the
    transcript that the prover used. Any other total, and any randomness that is not as long as the
    list of ciphertexts, whatever these are, is refused with the prover as it was. -/
theorem complete_for_any_total (hash : Hash) (hsafe : key.group.IsSafe) :
    (∀ (openings : List (Nat × Nat)) (ciphertexts : List Ciphertext),
      Ciphertext.AreEncryptions key openings ciphertexts →
        ∀ (total : UInt64) (context : Bytes) (start : Transcript) (supply : Bytes),
          let run := prove hash key ciphertexts total (openings.map (·.2)) context ⟨supply, start⟩
          let isTotal := (openings.map (·.1)).sum ≡ total.toNat [MOD key.group.q]
          (∀ w rest, Draw.exponent key.group supply = (.ok w, rest) →
            ((∃ proof, run.1 = .ok proof) ↔ isTotal)) ∧
          (∀ proof, run.1 = .ok proof →
            (verify hash key ciphertexts total proof context start).1 = .ok true) ∧
          (¬ isTotal →
            run = (.error (.refused (.invalidSelection (.notTheTotal total))), ⟨supply, start⟩))) ∧
    ∀ (ciphertexts : List Ciphertext) (total : UInt64) (randomness : List Nat) (context : Bytes)
      (prover : Prover), ciphertexts.length ≠ randomness.length →
        prove hash key ciphertexts total randomness context prover =
          (.error (.refused (.countMismatch .ciphertexts ciphertexts.length randomness.length)),
            prover) := by
  refine ⟨fun openings ciphertexts hencrypts total context start supply => ?_,
    fun ciphertexts total randomness context prover =>
      prove_of_length_ne hash context prover total⟩
  intro run isTotal
  have hlength : ciphertexts.length = (openings.map (·.2)).length := by
    rw [List.length_map, hencrypts.length_eq]
  have hiff : Ciphertext.encrypt key total.toNat (key.group.sumQ (openings.map (·.2))) =
      .ok (Ciphertext.combineAll key.group ciphertexts) ↔ isTotal := by
    rw [Ciphertext.encrypt_eq_combineAll_iff hencrypts, Group.powG_eq_powG_iff hsafe,
      ZMod.natCast_eq_natCast_iff]
  have hrefused (hnot : ¬ isTotal) :
      run = (.error (.refused (.invalidSelection (.notTheTotal total))), ⟨supply, start⟩) :=
    prove_of_encrypt_ne hash context _ hlength (mt hiff.1 hnot)
  have htotal {proof : SumProof} (hproof : run.1 = .ok proof) : isTotal := by
    by_contra hnot
    rw [hrefused hnot] at hproof
    cases hproof
  refine ⟨fun w rest hdraw => ⟨fun ⟨_, hproof⟩ => htotal hproof, fun hsum => ?_⟩,
    fun proof hproof => ?_, hrefused⟩
  · have hproved : run = _ := prove_of_exponent_eq_ok hash hlength (hiff.2 hsum) hdraw rfl
    exact ⟨_, congrArg Prod.fst hproved⟩
  · have hpowers := (Ciphertext.encrypt_eq_combineAll_iff hencrypts _).1 (hiff.2 (htotal hproof))
    have hrun : run = (.ok proof, run.2) := Prod.ext hproof rfl
    exact ((completes_prove_on hash hencrypts hpowers context _).of_ok hrun).1

/-- Three and eleven are a total of 25 modulo the order of the group, and not of 26. -/
theorem complete_for_any_total_small :
    let hash : Hash := fun bytes => [bytes.length.toUInt8]
    let openings : List (Nat × Nat) := [(3, 25), (11, 4)]
    let made : List Ciphertext := [⟨18, 3⟩, ⟨3, 12⟩]
    let start : Transcript := ⟨[1, 2], []⟩
    PublicKey.small.group.IsSafe ∧ Ciphertext.AreEncryptions .small openings made ∧
      Draw.exponent PublicKey.small.group [15, 5, 9] = (.ok 5, [9]) ∧
      (∃ proof, (prove hash .small made 25 [25, 4] [7] ⟨[15, 5, 9], start⟩).1 = .ok proof ∧
        (verify hash .small made 25 proof [7] start).1 = .ok true) ∧
      ¬ 14 ≡ 26 [MOD PublicKey.small.group.q] ∧
      prove hash .small made 26 [25, 4] [7] ⟨[15, 5, 9], start⟩ =
        (.error (.refused (.invalidSelection (.notTheTotal 26))), ⟨[15, 5, 9], start⟩) ∧
      prove hash .small made 25 [25] [7] ⟨[15, 5, 9], start⟩ =
        (.error (.refused (.countMismatch .ciphertexts 2 1)), ⟨[15, 5, 9], start⟩) := by
  intro hash openings made start
  have hsafe : PublicKey.small.group.IsSafe := Group.small_isSafe
  have hencrypts : Ciphertext.AreEncryptions .small openings made :=
    .cons rfl (.cons rfl .nil)
  have hdraw : Draw.exponent PublicKey.small.group [15, 5, 9] = (.ok 5, [9]) := rfl
  have hnot : ¬ 14 ≡ 26 [MOD PublicKey.small.group.q] := by decide
  obtain ⟨hsums, hlengths⟩ := complete_for_any_total hash hsafe
  obtain ⟨hiff, hverifies, _⟩ := hsums openings made hencrypts 25 [7] start [15, 5, 9]
  obtain ⟨_, _, hrefused⟩ := hsums openings made hencrypts 26 [7] start [15, 5, 9]
  obtain ⟨proof, hproof⟩ := (hiff 5 [9] hdraw).2 (by decide)
  exact ⟨hsafe, hencrypts, hdraw, ⟨proof, hproof, hverifies proof hproof⟩, hnot, hrefused hnot,
    hlengths made 25 [25] [7] _ (by decide)⟩

end SumProof

end SecretBallot
