import Mathlib
import SecretBallot.Proofs.Wire.Reader
import SecretBallot.Transcript

namespace SecretBallot

namespace Bytes

theorem ofNat_injective : Function.Injective ofNat :=
  Function.LeftInverse.injective toNatBE_ofNat

theorem ofUInt64_injective : Function.Injective ofUInt64 := by
  intro a b hsame
  have hnumber := congrArg toNatBE hsame
  rw [toNatBE_ofUInt64, toNatBE_ofUInt64] at hnumber
  exact UInt64.toNat_inj.1 hnumber

theorem ofText_injective : Function.Injective ofText := by
  intro a b hsame
  have htext := congrArg toText? hsame
  rw [toText?_ofText, toText?_ofText] at htext
  exact Option.some.inj htext

/-- A smaller number takes no more bytes. -/
theorem length_ofNat_le {m n : Nat} (hle : m ≤ n) : (ofNat m).length ≤ (ofNat n).length := by
  have hlog : m.log2 ≤ n.log2 := by
    rw [Nat.log2_eq_log_two, Nat.log2_eq_log_two]
    exact Nat.log_mono_right hle
  rw [ofNat, ofNat, length_ofNatBE, length_ofNatBE]
  omega

end Bytes

/-- A field whose length the eight bytes in front of it can tell, as those of all byte strings that
    fit into memory. -/
def IsFramable (field : Bytes) : Prop :=
  field.length < 2 ^ 64

instance : DecidablePred IsFramable :=
  fun field => inferInstanceAs (Decidable (field.length < 2 ^ 64))

/-- The length in front tells where a field ends. -/
theorem frame_append_inj {field other rest more : Bytes} (hfield : IsFramable field)
    (hother : IsFramable other) (hsame : frame field ++ rest = frame other ++ more) :
    field = other ∧ rest = more := by
  rw [frame, frame, List.append_assoc, List.append_assoc] at hsame
  obtain ⟨hwritten, htail⟩ := List.append_inj hsame (by simp)
  have hbound : (2 : Nat) ^ 64 = 256 ^ 8 := by decide
  have hlength : field.length = other.length := by
    have hnumber := congrArg Bytes.toNatLE hwritten
    rwa [Bytes.toNatLE_ofNatLE, Bytes.toNatLE_ofNatLE, ← hbound, Nat.mod_eq_of_lt hfield,
      Nat.mod_eq_of_lt hother] at hnumber
  exact List.append_inj htail hlength

theorem frame_append_ne_nil (field rest : Bytes) : frame field ++ rest ≠ [] := by
  intro hnil
  have hlength := congrArg List.length hnil
  simp [frame] at hlength

/-- No two lists of fields are hashed from the same bytes. -/
theorem flatMap_frame_inj {fields others : List Bytes}
    (hfields : ∀ field ∈ fields, IsFramable field) (hothers : ∀ field ∈ others, IsFramable field)
    (hsame : fields.flatMap frame = others.flatMap frame) : fields = others := by
  induction fields generalizing others with
  | nil =>
    cases others with
    | nil => rfl
    | cons other more => exact absurd hsame.symm (frame_append_ne_nil other _)
  | cons field rest ih =>
    cases others with
    | nil => exact absurd hsame (frame_append_ne_nil field _)
    | cons other more =>
      obtain ⟨hfield, hrest⟩ := List.forall_mem_cons.1 hfields
      obtain ⟨hother, hmore⟩ := List.forall_mem_cons.1 hothers
      obtain ⟨rfl, htail⟩ := frame_append_inj hfield hother hsame
      rw [ih hrest hmore htail]

theorem frameNats_eq (numbers : List Nat) :
    frameNats numbers = (numbers.map Bytes.ofNat).flatMap frame := by
  rw [List.flatMap_map]
  rfl

/-- The length in front of a field of a record tells where it ends, too. -/
theorem Wire.field_append_inj {bytes other rest more : Bytes} (hbytes : IsShort bytes)
    (hother : IsShort other) (hsame : field bytes ++ rest = field other ++ more) :
    bytes = other ∧ rest = more := by
  have hread := Decoder.reads_field hbytes 0 rest
  rw [hsame, Decoder.reads_field hother 0 more, Prod.mk.injEq, Except.ok.injEq,
    Reader.mk.injEq] at hread
  exact ⟨hread.1.symm, hread.2.2.symm⟩

end SecretBallot
