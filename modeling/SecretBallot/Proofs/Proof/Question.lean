import Mathlib
import SecretBallot.Proof.Membership
import SecretBallot.Proof.Sum
import SecretBallot.Proofs.Transcript

namespace SecretBallot

theorem PublicKey.eq_of_numbers {key other : PublicKey} (hp : key.group.p = other.group.p)
    (hg : key.group.g = other.group.g) (hf : key.f = other.f) (hh : key.h = other.h) :
    key = other := by
  obtain ⟨⟨p, g, _, _, _, _, _, _⟩, f, h, _, _⟩ := key
  obtain ⟨⟨p', g', _, _, _, _, _, _⟩, f', h', _, _⟩ := other
  cases hp
  cases hg
  cases hf
  cases hh
  rfl

inductive ProofKind where
  | membership
  | sum
  deriving DecidableEq

namespace ProofKind

def label : ProofKind → Bytes
  | .membership => MembershipProof.label
  | .sum => SumProof.label

theorem label_injective : Function.Injective label := by
  intro a b hsame
  have hlabels : MembershipProof.label ≠ SumProof.label :=
    fun hlabel => absurd (Bytes.ofText_injective hlabel) (by decide)
  cases a <;> cases b <;> first | rfl | exact absurd hsame hlabels | exact absurd hsame.symm hlabels

/-- The numbers of ciphertexts, values and commitments that go together in a proof of a kind. -/
def Shapes : ProofKind → (ciphertexts values commitments : Nat) → Prop
  | .membership, ciphertexts, values, commitments => ciphertexts = 1 ∧ commitments = values
  | .sum, _, values, commitments => values = 1 ∧ commitments = 1

end ProofKind

/-- What a challenge is derived from. -/
structure Question where
  kind : ProofKind
  context : Bytes
  key : PublicKey
  ciphertexts : List Ciphertext
  values : List UInt64
  commitments : List (Nat × Nat)
  shaped : kind.Shapes ciphertexts.length values.length commitments.length

namespace Question

/-- The bytes that are hashed. -/
def bytes (question : Question) : Bytes :=
  statement question.kind.label question.context question.key question.ciphertexts question.values
    ++ frameNats (question.commitments.map (·.1) ++ question.commitments.map (·.2))

def ciphertextNumbers (question : Question) : List Nat :=
  question.ciphertexts.flatMap fun ciphertext => [ciphertext.pad, ciphertext.data]

/-- The fields of the bytes, each hashed behind its length. -/
def fields (question : Question) : List Bytes :=
  question.kind.label :: question.context :: Bytes.ofNat question.key.group.p ::
    Bytes.ofNat question.key.group.g :: Bytes.ofNat question.key.f ::
    Bytes.ofNat question.key.h :: (question.ciphertextNumbers.map Bytes.ofNat ++
      (question.values.map Bytes.ofUInt64 ++
        (question.commitments.map (·.1) ++ question.commitments.map (·.2)).map Bytes.ofNat))

theorem bytes_eq (question : Question) : question.bytes = question.fields.flatMap frame := by
  rw [bytes, statement, fields, frameNats_eq, frameNats_eq, ciphertextNumbers]
  simp only [frameNats_eq, List.map_flatMap, List.flatMap_assoc, List.flatMap_cons,
    List.flatMap_append, List.flatMap_map, List.map_cons, List.map_nil, List.flatMap_nil,
    List.append_nil, List.append_assoc]

theorem length_ciphertextNumbers (question : Question) :
    question.ciphertextNumbers.length = 2 * question.ciphertexts.length := by
  rw [ciphertextNumbers, List.length_flatMap]
  simp [Nat.mul_comm]

/-- Which numbers were hashed tells the ciphertexts. -/
theorem eq_of_ciphertextNumbers {question other : Question}
    (hsame : question.ciphertextNumbers = other.ciphertextNumbers) :
    question.ciphertexts = other.ciphertexts := by
  rw [ciphertextNumbers, ciphertextNumbers] at hsame
  generalize question.ciphertexts = ciphertexts at hsame ⊢
  generalize other.ciphertexts = others at hsame ⊢
  induction ciphertexts generalizing others with
  | nil =>
    cases others with
    | nil => rfl
    | cons head tail => simp at hsame
  | cons first rest ih =>
    cases others with
    | nil => simp at hsame
    | cons head tail =>
      simp only [List.flatMap_cons, List.cons_append, List.nil_append, List.cons.injEq] at hsame
      obtain ⟨hpad, hdata, hrest⟩ := hsame
      obtain ⟨pad, data⟩ := first
      cases hpad
      cases hdata
      rw [ih tail hrest]

/-- Two questions with the same number of fields agree in the length of each list. -/
theorem lengths_eq {question other : Question} (hkind : question.kind = other.kind)
    (hlength : question.fields.length = other.fields.length) :
    question.ciphertexts.length = other.ciphertexts.length ∧
      question.values.length = other.values.length ∧
      question.commitments.length = other.commitments.length := by
  have hshaped := question.shaped
  have hothers := other.shaped
  simp only [fields, List.length_cons, List.length_append, List.length_map,
    length_ciphertextNumbers] at hlength
  rw [← hkind] at hothers
  cases hcase : question.kind with
  | membership =>
    rw [hcase] at hshaped hothers
    obtain ⟨hone, hcommitments⟩ := hshaped
    obtain ⟨hother, hmore⟩ := hothers
    omega
  | sum =>
    rw [hcase] at hshaped hothers
    obtain ⟨hone, hcommitments⟩ := hshaped
    obtain ⟨hother, hmore⟩ := hothers
    omega

/-- Two pairs of lists agree if the lists of their components do. -/
theorem eq_of_components {pairs others : List (Nat × Nat)}
    (hfirst : pairs.map (·.1) = others.map (·.1)) (hsecond : pairs.map (·.2) = others.map (·.2)) :
    pairs = others := by
  rw [← List.zip_unzip pairs, ← List.zip_unzip others]
  simp only [List.unzip_fst, List.unzip_snd]
  rw [hfirst, hsecond]

/-- A question can be read off its bytes. -/
theorem eq_of_bytes_eq {question other : Question}
    (hfields : ∀ field ∈ question.fields, IsFramable field)
    (hothers : ∀ field ∈ other.fields, IsFramable field) (hsame : question.bytes = other.bytes) :
    question = other := by
  rw [bytes_eq, bytes_eq] at hsame
  have hlist := flatMap_frame_inj hfields hothers hsame
  have hlength := congrArg List.length hlist
  simp only [fields, List.cons.injEq] at hlist
  obtain ⟨hlabel, hcontext, hp, hg, hf, hh, htail⟩ := hlist
  have hkind := ProofKind.label_injective hlabel
  obtain ⟨hciphertexts, hvalues, hcommitments⟩ := lengths_eq hkind hlength
  obtain ⟨hciphertexts, htail⟩ := List.append_inj htail (by
    rw [List.length_map, List.length_map, length_ciphertextNumbers, length_ciphertextNumbers,
      hciphertexts])
  obtain ⟨hvalues, hnumbers⟩ := List.append_inj htail (by
    rw [List.length_map, List.length_map, hvalues])
  have hnat := List.map_injective_iff.2 Bytes.ofNat_injective
  obtain ⟨hfirst, hsecond⟩ := List.append_inj (hnat hnumbers) (by
    rw [List.length_map, List.length_map, hcommitments])
  have hkey := PublicKey.eq_of_numbers (Bytes.ofNat_injective hp) (Bytes.ofNat_injective hg)
    (Bytes.ofNat_injective hf) (Bytes.ofNat_injective hh)
  have hciphertexts := eq_of_ciphertextNumbers (hnat hciphertexts)
  have hvalues := List.map_injective_iff.2 Bytes.ofUInt64_injective hvalues
  have hcommitments := eq_of_components hfirst hsecond
  obtain ⟨kind, context, key, ciphertexts, values, commitments, _⟩ := question
  cases hkind
  cases hcontext
  cases hkey
  cases hciphertexts
  cases hvalues
  cases hcommitments
  rfl

end Question

end SecretBallot
