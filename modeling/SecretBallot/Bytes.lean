namespace SecretBallot

abbrev Bytes := List UInt8

/-- The number of binary digits of a number; zero has none. -/
def bitLength (n : Nat) : Nat :=
  if n = 0 then 0 else n.log2 + 1

namespace Bytes

/-- The `width` lowest base-256 digits of a number, the lowest first. -/
def ofNatLE : Nat → Nat → Bytes
  | 0, _ => []
  | width + 1, n => UInt8.ofNat n :: ofNatLE width (n / 256)

/-- The `width` lowest base-256 digits of a number, the highest first. -/
def ofNatBE (width n : Nat) : Bytes :=
  (ofNatLE width n).reverse

/-- The shortest big-endian form. Zero is written as one zero byte. -/
def ofNat (n : Nat) : Bytes :=
  ofNatBE (n.log2 / 8 + 1) n

/-- The eight bytes of a word, the highest first. -/
def ofUInt64 (n : UInt64) : Bytes :=
  ofNatBE 8 n.toNat

/-- The number whose base-256 digits are the given bytes, the lowest first. -/
def toNatLE (bytes : Bytes) : Nat :=
  bytes.foldr (fun byte n => n * 256 + byte.toNat) 0

/-- The number whose base-256 digits are the given bytes, the highest first. -/
def toNatBE (bytes : Bytes) : Nat :=
  bytes.foldl (fun n byte => n * 256 + byte.toNat) 0

/-- The UTF-8 form of a text. -/
def ofText (text : String) : Bytes :=
  text.toUTF8.data.toList

/-- The text with the given UTF-8 form, if there is one. -/
def toText? (bytes : Bytes) : Option String :=
  String.fromUTF8? ⟨bytes.toArray⟩

/-- Two lowercase hexadecimal digits for every byte. -/
def hex (bytes : Bytes) : String :=
  String.ofList (bytes.flatMap fun byte =>
    [Nat.digitChar (byte.toNat / 16), Nat.digitChar (byte.toNat % 16)])

@[simp] theorem length_ofNatLE (width n : Nat) : (ofNatLE width n).length = width := by
  induction width generalizing n with
  | zero => rfl
  | succ width ih => simp [ofNatLE, ih]

@[simp] theorem length_ofNatBE (width n : Nat) : (ofNatBE width n).length = width := by
  simp [ofNatBE]

@[simp] theorem length_ofUInt64 (n : UInt64) : (ofUInt64 n).length = 8 :=
  length_ofNatBE 8 _

theorem toNatBE_eq_toNatLE_reverse (bytes : Bytes) : toNatBE bytes = toNatLE bytes.reverse := by
  simp [toNatBE, toNatLE]

@[simp] theorem toText?_ofText (text : String) : toText? (ofText text) = some text := by
  have harray : (⟨(ofText text).toArray⟩ : ByteArray) = text.toByteArray := by
    simp [ofText]
  simp [toText?, harray, String.fromUTF8?, text.isValidUTF8, String.fromUTF8]

theorem toText?_eq_some_iff {bytes : Bytes} {text : String} :
    toText? bytes = some text ↔ bytes = ofText text := by
  constructor
  · intro h
    simp only [toText?, String.fromUTF8?] at h
    split at h
    · obtain rfl := Option.some.inj h
      simp [ofText, String.fromUTF8]
    · cases h
  · rintro rfl
    exact toText?_ofText text

end Bytes

end SecretBallot
