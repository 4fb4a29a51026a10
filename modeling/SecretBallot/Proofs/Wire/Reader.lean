import Mathlib
import SecretBallot.Wire.Reader
import SecretBallot.Proofs.Digits
import SecretBallot.Proofs.Dict

namespace SecretBallot

namespace Wire

/-- A field whose length the four bytes in front of it can tell. -/
def IsShort (bytes : Bytes) : Prop :=
  bytes.length < 2 ^ 32

instance : DecidablePred IsShort :=
  fun bytes => inferInstanceAs (Decidable (bytes.length < 2 ^ 32))

namespace Decoder

variable {α β : Type}

/-- A decoder takes exactly the given bytes from the front of an input and returns the value. -/
def Reads (decoder : Decoder α) (bytes : Bytes) (value : α) : Prop :=
  ∀ offset rest, decoder ⟨offset, bytes ++ rest⟩ = (.ok value, ⟨offset + bytes.length, rest⟩)

theorem bind_of_ok {decoder : Decoder α} {reader reached : Reader} {value : α}
    (hread : decoder reader = (.ok value, reached)) (next : α → Decoder β) :
    (decoder >>= next) reader = next value reached :=
  Stateful.bind_of_ok hread next

theorem bind_apply (decoder : Decoder α) (next : α → Decoder β) (reader : Reader) :
    (decoder >>= next) reader =
      match decoder reader with
      | (.ok value, reached) => next value reached
      | (.error error, reached) => (.error error, reached) := by
  rw [Stateful.bind_apply]
  rcases decoder reader with ⟨outcome, reached⟩
  cases outcome <;> rfl

theorem bind_eq_ok_iff {decoder : Decoder α} {next : α → Decoder β} {reader reached : Reader}
    {result : β} : (decoder >>= next) reader = (.ok result, reached) ↔
      ∃ value between, decoder reader = (.ok value, between) ∧
        next value between = (.ok result, reached) :=
  Stateful.bind_eq_ok_iff

/-- What is taken is the front of what is left, and not more of it than there is. -/
theorem take_apply (count : Nat) (reader : Reader) :
    take count reader =
      if reader.rest.length < count then
        (.error (.malformed (.truncated count reader.offset reader.rest.length)), reader)
      else (.ok (reader.rest.take count), ⟨reader.offset + count, reader.rest.drop count⟩) := by
  change (if reader.rest.length < count then
      (throw (.malformed (.truncated count reader.offset reader.rest.length)) : Decoder Bytes)
    else do
      set (⟨reader.offset + count, reader.rest.drop count⟩ : Reader)
      pure (reader.rest.take count)) reader = _
  split <;> rfl

theorem reads_pure (value : α) : (pure value : Decoder α).Reads [] value :=
  fun _ _ => rfl

/-- A check that passes reads nothing. -/
theorem reads_lift {outcome : Except Error α} {value : α} (hok : outcome = .ok value) :
    (liftM outcome : Decoder α).Reads [] value := by
  intro offset rest
  rw [hok]
  rfl

theorem Reads.bind {decoder : Decoder α} {next : α → Decoder β} {bytes more : Bytes} {value : α}
    {result : β} (hread : decoder.Reads bytes value) (hnext : (next value).Reads more result) :
    (decoder >>= next).Reads (bytes ++ more) result := by
  intro offset rest
  rw [List.append_assoc, bind_of_ok (hread offset (more ++ rest)), hnext, List.length_append,
    Nat.add_assoc]

/-- What is read last is followed by nothing but the value that is returned. -/
theorem Reads.bind_last {decoder : Decoder α} {next : α → Decoder β} {bytes : Bytes} {value : α}
    {result : β} (hread : decoder.Reads bytes value) (hnext : (next value).Reads [] result) :
    (decoder >>= next).Reads bytes result := by
  have hall := hread.bind hnext
  rwa [List.append_nil] at hall

theorem reads_take (bytes : Bytes) : (take bytes.length).Reads bytes bytes := by
  intro offset rest
  have henough : ¬ (bytes ++ rest).length < bytes.length := by
    rw [List.length_append]
    omega
  rw [take_apply, if_neg henough, List.take_left, List.drop_left]

theorem reads_field {bytes : Bytes} (hshort : IsShort bytes) :
    field.Reads (Wire.field bytes) bytes := by
  have hlength : (Bytes.ofNatBE 4 bytes.length).toNatBE = bytes.length := by
    rw [Bytes.toNatBE_ofNatBE]
    exact Nat.mod_eq_of_lt hshort
  have hprefix : (take 4).Reads (Bytes.ofNatBE 4 bytes.length) (Bytes.ofNatBE 4 bytes.length) := by
    have htake := reads_take (Bytes.ofNatBE 4 bytes.length)
    rwa [Bytes.length_ofNatBE] at htake
  refine hprefix.bind ?_
  rw [hlength]
  exact reads_take bytes

theorem reads_nat {n : Nat} (hshort : IsShort (Bytes.ofNat n)) : nat.Reads (natField n) n := by
  refine (reads_field hshort).bind_last ?_
  rw [Bytes.toNatBE_ofNat]
  exact reads_pure n

theorem reads_word (n : UInt64) : word.Reads (wordField n) n := by
  have hshort : IsShort (Bytes.ofUInt64 n) := by
    rw [IsShort, Bytes.length_ofUInt64]
    decide
  refine (reads_field hshort).bind_last ?_
  rw [if_pos (Bytes.length_ofUInt64 n), Bytes.toNatBE_ofUInt64, UInt64.ofNat_toNat]
  exact reads_pure n

theorem reads_text {content : String} (hshort : IsShort (Bytes.ofText content)) :
    text.Reads (textField content) content := by
  refine (reads_field hshort).bind_last ?_
  rw [Bytes.toText?_ofText]
  exact reads_pure content

/-- A number of elements, if four bytes are left for each of them. -/
def roomFor (n : UInt64) : Decoder Nat := do
  let reader ← get
  if n.toNat ≤ reader.rest.length / 4 then pure n.toNat
  else throw (.malformed (.countTooLarge n.toNat))

/-- A count is held against what is left behind it. -/
theorem count_eq : count = word >>= roomFor :=
  rfl

theorem roomFor_apply (n : UInt64) (reader : Reader) :
    roomFor n reader =
      if n.toNat ≤ reader.rest.length / 4 then (.ok n.toNat, reader)
      else (.error (.malformed (.countTooLarge n.toNat)), reader) := by
  change (if n.toNat ≤ reader.rest.length / 4 then (pure n.toNat : Decoder Nat)
    else throw (.malformed (.countTooLarge n.toNat))) reader = _
  split <;> rfl

/-- A count is accepted in front of at least four bytes for every element. -/
theorem Reads.count_bind {n : UInt64} {next : Nat → Decoder α} {front more : Bytes} {result : α}
    (hword : word.Reads front n) (hroom : 4 * n.toNat ≤ more.length)
    (hnext : (next n.toNat).Reads more result) :
    (count >>= next).Reads (front ++ more) result := by
  intro offset rest
  have hfits : n.toNat ≤ (more ++ rest).length / 4 := by
    rw [List.length_append]
    omega
  have hcount : count ⟨offset, front ++ (more ++ rest)⟩ =
      (.ok n.toNat, ⟨offset + front.length, more ++ rest⟩) := by
    rw [count_eq, bind_of_ok (hword offset (more ++ rest)), roomFor_apply, if_pos hfits]
  rw [List.append_assoc, bind_of_ok hcount, hnext, List.length_append, Nat.add_assoc]

/-- The count that is written for a list of that length. -/
theorem Reads.countField_bind {n : Nat} {next : Nat → Decoder α} {more : Bytes} {result : α}
    (hword : n < 2 ^ 64) (hroom : 4 * n ≤ more.length) (hnext : (next n).Reads more result) :
    (count >>= next).Reads (countField n ++ more) result := by
  have hvalue : (UInt64.ofNat n).toNat = n := UInt64.toNat_ofNat_of_lt' hword
  rw [← hvalue] at hroom hnext
  exact (reads_word (UInt64.ofNat n)).count_bind hroom hnext

theorem reads_repeated {element : Decoder α} {write : α → Bytes} {values : List α}
    (hread : ∀ value ∈ values, element.Reads (write value) value) :
    (repeated element values.length).Reads (values.flatMap write) values := by
  induction values with
  | nil => exact reads_pure []
  | cons value rest ih =>
    obtain ⟨hvalue, hrest⟩ := List.forall_mem_cons.1 hread
    rw [List.flatMap_cons]
    exact hvalue.bind ((ih hrest).bind_last (reads_pure _))

end Decoder

/-- Elements that take at least four bytes each leave room for their count. -/
theorem four_mul_length_le {α : Type} {write : α → Bytes} {values : List α}
    (hwrite : ∀ value ∈ values, 4 ≤ (write value).length) :
    4 * values.length ≤ (values.flatMap write).length := by
  induction values with
  | nil => exact Nat.zero_le _
  | cons value rest ih =>
    obtain ⟨hvalue, hrest⟩ := List.forall_mem_cons.1 hwrite
    have hle := ih hrest
    rw [List.length_cons, List.flatMap_cons, List.length_append]
    omega

theorem length_field (bytes : Bytes) : (field bytes).length = 4 + bytes.length := by
  rw [field, List.length_append, Bytes.length_ofNatBE]

theorem four_le_length_field (bytes : Bytes) : 4 ≤ (field bytes).length := by
  rw [length_field]
  exact Nat.le_add_right _ _

end Wire

end SecretBallot
