import Mathlib
import SecretBallot.Proofs.Wire.RoundTrip

namespace SecretBallot

namespace Wire

/-- Which byte strings stand for which values. -/
abbrev Format (α : Type) := Bytes → α → Prop

namespace Format

variable {α β : Type}

/-- Any bytes, behind their length in four bytes. -/
def field : Format Bytes := fun bytes content =>
  ∃ length : Bytes, length.length = 4 ∧ length.toNatBE = content.length ∧ bytes = length ++ content

/-- A number in any number of digits: none at all for zero, and zeros in front, are allowed. -/
def number : Format Nat := fun bytes n =>
  ∃ digits, field bytes digits ∧ digits.toNatBE = n

/-- A number of elements to come, in eight digits. -/
def count : Format Nat := fun bytes n =>
  ∃ digits, field bytes digits ∧ digits.length = 8 ∧ digits.toNatBE = n

/-- A word, in eight digits as well. -/
def word : Format UInt64 := fun bytes n =>
  count bytes n.toNat

def text : Format String := fun bytes content =>
  field bytes (Bytes.ofText content)

/-- A record with the given tag, up to the end of the bytes. -/
def record (tag : UInt8) (fields : Format α) : Format α := fun bytes value =>
  ∃ rest, bytes = tag :: 0x01 :: rest ∧ fields rest value

/-- A field that is exactly one string of another format. -/
def nested (format : Format α) : Format α := fun bytes value =>
  ∃ content, field bytes content ∧ format content value

/-- Elements one after the other. -/
inductive Sequence (element : Format α) : Format (List α)
  | nil : Sequence element [] []
  | cons {bytes more : Bytes} {value : α} {values : List α} : element bytes value →
      Sequence element more values → Sequence element (bytes ++ more) (value :: values)

/-- No bytes, which stand for the given value. -/
def nothing (value : α) : Format α := fun bytes result =>
  bytes = [] ∧ result = value

/-- A first part, and a second whose format depends on the value of the first. -/
def andThen (first : Format α) (next : α → Format β) : Format β := fun bytes result =>
  ∃ front back value, first front value ∧ next value back result ∧ bytes = front ++ back

theorem four_le_length_of_field {bytes content : Bytes} (hfield : field bytes content) :
    4 ≤ bytes.length := by
  obtain ⟨length, hlength, -, rfl⟩ := hfield
  rw [List.length_append, hlength]
  exact Nat.le_add_right _ _

/-- Elements of at least four bytes each leave room for their count. -/
theorem Sequence.four_mul_length_le {element : Format α} {bytes : Bytes} {values : List α}
    (helement : ∀ {bytes value}, element bytes value → 4 ≤ bytes.length)
    (hall : Sequence element bytes values) : 4 * values.length ≤ bytes.length := by
  induction hall with
  | nil => exact Nat.zero_le _
  | cons hfirst _ ih =>
    have hroom := helement hfirst
    rw [List.length_cons, List.length_append]
    omega

end Format

namespace Decoder

variable {α β : Type}

/-- What is taken is a string of the format. -/
def Sound (decoder : Decoder α) (format : Format α) : Prop :=
  ∀ reader reached value, decoder reader = (.ok value, reached) →
    ∃ bytes, reader.rest = bytes ++ reached.rest ∧ format bytes value

/-- No input is refused but as malformed. -/
def RefusesMalformed (decoder : Decoder α) : Prop :=
  ∀ reader reached error, decoder reader = (.error error, reached) →
    ∃ fault, error = .malformed fault

/-- A decoder that takes exactly the strings of a format. -/
structure Parses (decoder : Decoder α) (format : Format α) : Prop where
  /-- A string of the format is taken, whatever comes behind it. -/
  reads : ∀ {bytes value}, format bytes value → decoder.Reads bytes value
  sound : decoder.Sound format
  malformed : decoder.RefusesMalformed

theorem Sound.bind {decoder : Decoder α} {next : α → Decoder β} {first : Format α}
    {second : α → Format β} (hfirst : decoder.Sound first)
    (hsecond : ∀ value, (next value).Sound (second value)) :
    (decoder >>= next).Sound (first.andThen second) := by
  intro reader reached result hrun
  obtain ⟨value, between, hvalue, hresult⟩ := bind_eq_ok_iff.1 hrun
  obtain ⟨front, hrest, hfront⟩ := hfirst _ _ _ hvalue
  obtain ⟨back, hleft, hback⟩ := hsecond value _ _ _ hresult
  refine ⟨front ++ back, ?_, front, back, value, hfront, hback, rfl⟩
  rw [hrest, hleft, List.append_assoc]

theorem RefusesMalformed.bind {decoder : Decoder α} {next : α → Decoder β}
    (hfirst : decoder.RefusesMalformed) (hsecond : ∀ value, (next value).RefusesMalformed) :
    (decoder >>= next).RefusesMalformed := by
  intro reader reached error hrun
  rw [bind_apply] at hrun
  rcases hdecoder : decoder reader with ⟨outcome, between⟩
  rw [hdecoder] at hrun
  cases outcome with
  | error found =>
    cases hrun
    exact hfirst _ _ _ hdecoder
  | ok value => exact hsecond value _ _ _ hrun

theorem Parses.congr {decoder : Decoder α} {format other : Format α}
    (hparses : decoder.Parses format)
    (heq : ∀ bytes value, format bytes value ↔ other bytes value) : decoder.Parses other := by
  have hformat : format = other := by
    funext bytes value
    exact propext (heq bytes value)
  exact hformat ▸ hparses

theorem parses_pure (value : α) : (pure value : Decoder α).Parses (Format.nothing value) where
  reads := by
    rintro _ result ⟨rfl, rfl⟩
    exact reads_pure result
  sound := by
    intro reader reached result hrun
    cases hrun
    exact ⟨[], rfl, rfl, rfl⟩
  malformed := by
    intro reader reached error hrun
    cases hrun

/-- What is always turned down parses a format without strings. -/
theorem parses_throw {format : Format α} (fault : WireFault)
    (hnone : ∀ bytes value, ¬ format bytes value) :
    (throw (.malformed fault) : Decoder α).Parses format where
  reads hformat := absurd hformat (hnone _ _)
  sound := by
    intro reader reached result hrun
    cases hrun
  malformed := by
    intro reader reached error hrun
    cases hrun
    exact ⟨fault, rfl⟩

theorem Parses.bind {decoder : Decoder α} {next : α → Decoder β} {first : Format α}
    {second : α → Format β} (hfirst : decoder.Parses first)
    (hsecond : ∀ value, (next value).Parses (second value)) :
    (decoder >>= next).Parses (first.andThen second) where
  reads := by
    rintro _ result ⟨front, back, value, hfront, hback, rfl⟩
    exact (hfirst.reads hfront).bind ((hsecond value).reads hback)
  sound := hfirst.sound.bind fun value => (hsecond value).sound
  malformed := hfirst.malformed.bind fun value => (hsecond value).malformed

/-- What is read last is followed by nothing but the value that is returned. -/
theorem Parses.bind_pure {decoder : Decoder α} {format : Format α} (hparses : decoder.Parses format)
    (f : α → β) : (decoder >>= fun value => pure (f value)).Parses
      fun bytes result => ∃ value, format bytes value ∧ result = f value := by
  refine (hparses.bind fun value => parses_pure (f value)).congr fun bytes result => ?_
  constructor
  · rintro ⟨front, _, value, hvalue, ⟨rfl, hresult⟩, rfl⟩
    rw [List.append_nil]
    exact ⟨value, hvalue, hresult⟩
  · rintro ⟨value, hvalue, hresult⟩
    exact ⟨bytes, [], value, hvalue, ⟨rfl, hresult⟩, (List.append_nil bytes).symm⟩

/-- A check for a condition that turns malformed input down. -/
theorem Parses.guarded {decoder : Decoder α} {format : Format α} {condition : Prop}
    [Decidable condition] (fault : WireFault) (hparses : decoder.Parses format) :
    (if condition then decoder else throw (.malformed fault)).Parses
      fun bytes value => condition ∧ format bytes value := by
  by_cases hcondition : condition
  · rw [if_pos hcondition]
    exact hparses.congr fun bytes value => (and_iff_right hcondition).symm
  · rw [if_neg hcondition]
    exact parses_throw fault fun bytes value hvalue => hcondition hvalue.1

theorem parses_take (count : Nat) :
    (take count).Parses fun bytes content => content = bytes ∧ bytes.length = count where
  reads := by
    rintro bytes _ ⟨rfl, rfl⟩
    exact reads_take _
  sound := by
    intro reader reached content hrun
    rw [take_apply] at hrun
    split at hrun
    · cases hrun
    · next henough =>
      cases hrun
      refine ⟨_, (List.take_append_drop count reader.rest).symm, rfl, ?_⟩
      rw [List.length_take]
      omega
  malformed := by
    intro reader reached error hrun
    rw [take_apply] at hrun
    split at hrun
    · cases hrun
      exact ⟨_, rfl⟩
    · cases hrun

theorem parses_field : field.Parses Format.field := by
  refine ((parses_take 4).bind fun length => parses_take length.toNatBE).congr ?_
  intro bytes content
  constructor
  · rintro ⟨_, _, length, ⟨rfl, hlength⟩, ⟨rfl, hcontent⟩, hbytes⟩
    exact ⟨length, hlength, hcontent.symm, hbytes⟩
  · rintro ⟨length, hlength, hcontent, hbytes⟩
    exact ⟨length, content, length, ⟨rfl, hlength⟩, ⟨rfl, hcontent.symm⟩, hbytes⟩

/-- A field whose content is turned into a value without reading on. -/
theorem parses_field_bind {next : Bytes → Decoder α} {value : Bytes → α → Prop}
    (hnext : ∀ content,
      (next content).Parses fun bytes result => bytes = [] ∧ value content result) :
    (field >>= next).Parses fun bytes result =>
      ∃ content, Format.field bytes content ∧ value content result := by
  refine (parses_field.bind hnext).congr ?_
  intro bytes result
  constructor
  · rintro ⟨front, _, content, hfield, ⟨rfl, hvalue⟩, rfl⟩
    rw [List.append_nil]
    exact ⟨content, hfield, hvalue⟩
  · rintro ⟨content, hfield, hvalue⟩
    exact ⟨bytes, [], content, hfield, ⟨rfl, hvalue⟩, (List.append_nil bytes).symm⟩

theorem parses_nat : nat.Parses Format.number := by
  refine (parses_field.bind_pure fun digits => digits.toNatBE).congr fun bytes n => ?_
  exact exists_congr fun digits => and_congr_right fun _ => eq_comm

theorem parses_text : text.Parses Format.text := by
  have hcontent : text.Parses fun bytes text =>
      ∃ content, Format.field bytes content ∧ content = Bytes.ofText text := by
    refine parses_field_bind fun content => ?_
    cases htext : content.toText? with
    | none =>
      refine parses_throw .notText ?_
      rintro bytes text ⟨_, rfl⟩
      rw [Bytes.toText?_ofText] at htext
      cases htext
    | some found =>
      refine (parses_pure found).congr fun bytes text => and_congr_right fun _ => ?_
      rw [← Bytes.toText?_eq_some_iff, htext, Option.some.injEq]
      exact eq_comm
  refine hcontent.congr fun bytes text => ?_
  constructor
  · rintro ⟨_, hfield, rfl⟩
    exact hfield
  · intro hfield
    exact ⟨_, hfield, rfl⟩

theorem parses_word : word.Parses Format.word := by
  refine parses_field_bind fun digits => ?_
  refine ((parses_pure (UInt64.ofNat digits.toNatBE)).guarded _).congr fun bytes n => ?_
  rw [Format.nothing, and_left_comm]
  refine and_congr_right fun _ => and_congr_right fun hwidth => ?_
  have hsmall : digits.toNatBE < 2 ^ 64 := by
    have hlt := Bytes.toNatBE_lt digits
    rwa [hwidth] at hlt
  have hvalue : (UInt64.ofNat digits.toNatBE).toNat = digits.toNatBE :=
    UInt64.toNat_ofNat_of_lt' hsmall
  constructor
  · rintro rfl
    exact hvalue.symm
  · intro hn
    rw [hn, UInt64.ofNat_toNat]

theorem sound_roomFor (n : UInt64) : (roomFor n).Sound (Format.nothing n.toNat) := by
  intro reader reached value hrun
  rw [roomFor_apply] at hrun
  split at hrun
  · cases hrun
    exact ⟨[], rfl, rfl, rfl⟩
  · cases hrun

theorem refusesMalformed_roomFor (n : UInt64) : (roomFor n).RefusesMalformed := by
  intro reader reached error hrun
  rw [roomFor_apply] at hrun
  split at hrun
  · cases hrun
  · cases hrun
    exact ⟨_, rfl⟩

theorem sound_count : count.Sound Format.count := by
  intro reader reached n hrun
  rw [count_eq] at hrun
  obtain ⟨_, hrest, front, _, value, hfront, ⟨rfl, rfl⟩, rfl⟩ :=
    parses_word.sound.bind sound_roomFor reader reached n hrun
  rw [List.append_nil] at hrest
  exact ⟨front, hrest, hfront⟩

theorem refusesMalformed_count : count.RefusesMalformed :=
  parses_word.malformed.bind refusesMalformed_roomFor

/-- A number of elements is refused only where there is no room for them, which is not in front of
    elements of at least four bytes. -/
theorem parses_count_bind {next : Nat → Decoder α} {format : Nat → Format α}
    (hnext : ∀ n, (next n).Parses (format n))
    (hroom : ∀ {n bytes value}, format n bytes value → 4 * n ≤ bytes.length) :
    (count >>= next).Parses (Format.count.andThen format) where
  reads := by
    rintro _ result ⟨front, back, n, hcount, hback, rfl⟩
    have hsmall : n < 2 ^ 64 := by
      obtain ⟨digits, -, hwidth, rfl⟩ := hcount
      have hlt := Bytes.toNatBE_lt digits
      rwa [hwidth] at hlt
    obtain ⟨value, rfl⟩ : ∃ value : UInt64, value.toNat = n :=
      ⟨UInt64.ofNat n, UInt64.toNat_ofNat_of_lt' hsmall⟩
    exact (parses_word.reads hcount).count_bind (hroom hback) ((hnext _).reads hback)
  sound := sound_count.bind fun n => (hnext n).sound
  malformed := refusesMalformed_count.bind fun n => (hnext n).malformed

/-- Elements are read one by one. -/
theorem Parses.repeated {element : Decoder α} {format : Format α} (helement : element.Parses format)
    (n : Nat) : (repeated element n).Parses
      fun bytes values => values.length = n ∧ Format.Sequence format bytes values := by
  induction n with
  | zero =>
    refine (parses_pure []).congr fun bytes values => ?_
    constructor
    · rintro ⟨rfl, rfl⟩
      exact ⟨rfl, .nil⟩
    · rintro ⟨hlength, hall⟩
      cases hall with
      | nil => exact ⟨rfl, rfl⟩
      | cons => cases hlength
  | succ n ih =>
    refine (helement.bind fun first => ih.bind_pure fun rest => first :: rest).congr ?_
    intro bytes values
    constructor
    · rintro ⟨front, back, first, hfirst, ⟨rest, ⟨rfl, hrest⟩, rfl⟩, rfl⟩
      exact ⟨rfl, .cons hfirst hrest⟩
    · rintro ⟨hlength, hall⟩
      cases hall with
      | nil => cases hlength
      | @cons front back first rest hfirst hrest =>
        exact ⟨front, back, first, hfirst, ⟨rest, ⟨Nat.succ.inj hlength, hrest⟩, rfl⟩, rfl⟩

end Decoder

variable {α : Type} [Record α] {fields : Format α}

/-- The strings that are decoded are those that the format of the fields describes, behind the
    header. -/
theorem decode_eq_ok_iff (hfields : (Record.read : Decoder α).Parses fields) {bytes : Bytes}
    {value : α} : decode bytes = .ok value ↔ Format.record (Record.tag α) fields bytes value := by
  rw [decode_eq_ok_iff_read]
  constructor
  · rintro ⟨rest, offset, rfl, hread⟩
    obtain ⟨front, hrest, hfront⟩ := hfields.sound _ _ _ hread
    rw [List.append_nil] at hrest
    cases hrest
    exact ⟨rest, rfl, hfront⟩
  · rintro ⟨rest, rfl, hrest⟩
    have hread := hfields.reads hrest 2 []
    rw [List.append_nil] at hread
    exact ⟨rest, _, rfl, hread⟩

/-- A string that is not decoded is malformed. -/
theorem decode_malformed (hfields : (Record.read : Decoder α).Parses fields) {bytes : Bytes}
    {error : Error} (hdecode : (decode bytes : Except Error α) = .error error) :
    ∃ fault, error = .malformed fault := by
  rcases decode_cases (α := α) bytes with ⟨_, _, _, _, _, hvalue⟩ |
    ⟨rest, found, stopped, rfl, hread, herror⟩ | ⟨fault, hfault⟩
  · rw [hdecode] at hvalue
    cases hvalue
  · rw [hdecode] at herror
    cases herror
    exact hfields.malformed _ _ _ hread
  · rw [hdecode] at hfault
    cases hfault
    exact ⟨fault, rfl⟩

/-- A field that is exactly one record. -/
theorem Decoder.parses_nested (hfields : (Record.read : Decoder α).Parses fields) :
    (Decoder.nested : Decoder α).Parses (Format.nested (Format.record (Record.tag α) fields)) := by
  refine Decoder.parses_field_bind fun content => ?_
  cases hdecode : (decode content : Except Error α) with
  | error error =>
    obtain ⟨fault, rfl⟩ := decode_malformed hfields hdecode
    refine parses_throw fault ?_
    rintro bytes value ⟨rfl, hvalue⟩
    rw [(decode_eq_ok_iff hfields).2 hvalue] at hdecode
    cases hdecode
  | ok found =>
    refine (parses_pure found).congr fun bytes value => and_congr_right fun _ => ?_
    rw [← decode_eq_ok_iff hfields, hdecode, Except.ok.injEq]
    exact eq_comm

end Wire

end SecretBallot
