import Mathlib
import SecretBallot.KeyFile.Frame
import SecretBallot.Proofs.Proof.Statement
import SecretBallot.Proofs.Wire.RoundTrip

namespace SecretBallot

open KeyFile

namespace Source

/-- Everything that a source delivers. -/
def bytes (source : Source) : Bytes :=
  source.chunks.flatten

/-- A source behind its first `count` bytes. -/
def skip (source : Source) (count : Nat) : Source :=
  { source with chunks := (splitChunks count source.chunks).2 }

end Source

/-- A refusal that calls the file a bad key. -/
def Error.IsBadKey : Error → Prop
  | .badKey _ => True
  | .badKeyRecord _ => True
  | _ => False

namespace KeyFile

/-- A file is a record behind its length, which is at most `maxRecord` and is told by four bytes,
    the highest first. -/
def IsFrame (file record : Bytes) : Prop :=
  ∃ header, file = header ++ record ∧ header.length = 4 ∧ Bytes.toNatBE header = record.length ∧
    record.length ≤ maxRecord

/-- The length that the first four bytes of a file tell. -/
def declared (file : Bytes) : Nat :=
  Bytes.toNatBE (file.take 4)

/-- A file is seen to be too long, whatever follows: it declares more than `maxRecord` bytes, or it
    has more bytes than it declares. -/
def IsTooLong (file : Bytes) : Prop :=
  4 ≤ file.length ∧ (maxRecord < declared file ∨ 4 + declared file < file.length)

/-- Why a file that ends too early is refused. -/
def cutOff (fault : DeviceFault) (broken : Bool) : Error :=
  if broken then .device fault else .badKey .truncated

/-- What the last `count` bytes are read as, the device behind them broken or not. -/
def lastIn (fault : DeviceFault) (broken : Bool) (count : Nat) (bytes : Bytes) :
    Except Error Bytes :=
  if bytes.length < count then .error (cutOff fault broken)
  else if count < bytes.length then .error (.badKey .trailing)
  else if broken then .error (.device fault)
  else .ok bytes

/-- The record in the bytes of a file. -/
def recordIn (fault : DeviceFault) (broken : Bool) (file : Bytes) : Except Error Bytes :=
  if file.length < 4 then .error (cutOff fault broken)
  else if maxRecord < declared file then .error (.badKey (.declaredLength (declared file)))
  else lastIn fault broken (declared file) (file.drop 4)

section Read

variable {α : Type} [Wire.Record α] {fault : DeviceFault} {source : Source}

/-- Chunks are split where their concatenation is. -/
theorem splitChunks_eq (count : Nat) (chunks : List Bytes) :
    (splitChunks count chunks).1 = chunks.flatten.take count ∧
      (splitChunks count chunks).2.flatten = chunks.flatten.drop count := by
  induction chunks generalizing count with
  | nil => exact ⟨List.take_nil.symm, List.drop_nil.symm⟩
  | cons chunk rest ih =>
    rw [splitChunks, List.flatten_cons]
    by_cases hle : count ≤ chunk.length
    · rw [if_pos hle, List.take_append_of_le_length hle, List.drop_append_of_le_length hle]
      exact ⟨rfl, rfl⟩
    · have hbeyond : chunk.length ≤ count := by omega
      obtain ⟨htake, hdrop⟩ := ih (count - chunk.length)
      rw [if_neg hle, List.take_append, List.drop_append, List.take_of_length_le hbeyond,
        List.drop_of_length_le hbeyond, List.nil_append]
      exact ⟨congrArg (chunk ++ ·) htake, hdrop⟩

@[simp] theorem bytes_skip (source : Source) (count : Nat) :
    (source.skip count).bytes = source.bytes.drop count :=
  (splitChunks_eq count source.chunks).2

@[simp] theorem broken_skip (source : Source) (count : Nat) :
    (source.skip count).broken = source.broken :=
  rfl

theorem readUpTo_apply (fault : DeviceFault) (source : Source) (count : Nat) :
    readUpTo fault count source =
    (if source.bytes.length < count ∧ source.broken = true then .error (.device fault)
      else .ok (source.bytes.take count), source.skip count) := by
  have htake : (splitChunks count source.chunks).1 = source.bytes.take count :=
    (splitChunks_eq count source.chunks).1
  have hshort : (source.bytes.take count).length < count ↔ source.bytes.length < count := by
    rw [List.length_take]
    omega
  change (if (splitChunks count source.chunks).1.length < count ∧ source.broken = true then
      throw (.device fault) else pure (splitChunks count source.chunks).1 : Reading Bytes) _ = _
  simp only [htake, hshort]
  split <;> rfl

theorem readExactly_apply (fault : DeviceFault) (source : Source) (count : Nat) :
    readExactly fault count source =
    (if source.bytes.length < count then .error (cutOff fault source.broken)
      else .ok (source.bytes.take count), source.skip count) := by
  have hread := readUpTo_apply fault source count
  rw [readExactly]
  by_cases hshort : source.bytes.length < count
  · have hlength : (source.bytes.take count).length ≠ count := by
      rw [List.length_take]
      omega
    rw [if_pos hshort, cutOff]
    cases hbroken : source.broken with
    | true =>
      rw [if_pos ⟨hshort, hbroken⟩] at hread
      rw [Stateful.bind_of_error hread]
      rfl
    | false =>
      rw [if_neg fun h => by simp [hbroken] at h] at hread
      rw [Stateful.bind_of_ok hread, if_neg hlength]
      rfl
  · have hlength : (source.bytes.take count).length = count := by
      rw [List.length_take]
      omega
    rw [if_neg fun h => hshort h.1] at hread
    rw [if_neg hshort, Stateful.bind_of_ok hread, if_pos hlength]
    rfl

theorem readLast_eq (count : Nat) :
    (readLast fault count source).1 = lastIn fault source.broken count source.bytes := by
  have hbytes := readExactly_apply fault source count
  rw [readLast, lastIn]
  by_cases hless : source.bytes.length < count
  · rw [if_pos hless] at hbytes ⊢
    rw [Stateful.bind_of_error hbytes]
  rw [if_neg hless] at hbytes ⊢
  rw [Stateful.bind_of_ok hbytes]
  have hprobe := readUpTo_apply fault (source.skip count) 1
  rw [bytes_skip, List.length_drop, broken_skip] at hprobe
  by_cases hmore : count < source.bytes.length
  · have hfound : ¬ source.bytes.length - count < 1 := by omega
    have hne : (source.bytes.drop count).take 1 ≠ [] := by
      rw [ne_eq, List.take_eq_nil_iff, List.drop_eq_nil_iff]
      omega
    rw [if_neg fun h => hfound h.1] at hprobe
    rw [if_pos hmore, Stateful.bind_of_ok hprobe, if_neg hne]
    rfl
  have hend : source.bytes.length - count < 1 := by omega
  have hempty : (source.bytes.drop count).take 1 = [] := by
    rw [List.drop_of_length_le (Nat.not_lt.1 hmore), List.take_nil]
  have hall : source.bytes.take count = source.bytes :=
    List.take_of_length_le (Nat.not_lt.1 hmore)
  rw [if_neg hmore]
  cases hbroken : source.broken with
  | true =>
    rw [if_pos ⟨hend, hbroken⟩] at hprobe
    rw [Stateful.bind_of_error hprobe]
    rfl
  | false =>
    rw [hbroken, if_neg fun h => by cases h.2] at hprobe
    rw [Stateful.bind_of_ok hprobe, if_pos hempty, hall]
    rfl

/-- Reading decides by the bytes of the source, wherever they are cut. -/
theorem readFrame_eq : (readFrame fault source).1 = recordIn fault source.broken source.bytes := by
  have hheader := readExactly_apply fault source 4
  rw [readFrame, recordIn]
  by_cases hshort : source.bytes.length < 4
  · rw [if_pos hshort] at hheader ⊢
    rw [Stateful.bind_of_error hheader]
  rw [if_neg hshort] at hheader ⊢
  rw [Stateful.bind_of_ok hheader]
  change ((if maxRecord < declared source.bytes then _ else _ : Reading Bytes) _).1 = _
  by_cases hlarge : maxRecord < declared source.bytes
  · rw [if_pos hlarge, if_pos hlarge]
    rfl
  · rw [if_neg hlarge, if_neg hlarge, ← bytes_skip, ← broken_skip source 4]
    exact readLast_eq _

/-- What the bytes of a source are read as. -/
def keyIn {α : Type} [Wire.Record α] (fault : DeviceFault) (source : Source) : Except Error α :=
  (readReporting fault source).1

theorem keyIn_eq : (keyIn fault source : Except Error α) =
    recordIn fault source.broken source.bytes >>= fun record =>
      (Wire.decode record).mapError Error.badKeyRecord := by
  rw [← readFrame_eq, keyIn, readReporting, Stateful.bind_apply]
  rcases readFrame fault source with ⟨outcome, reached⟩
  cases outcome with
  | error error => rfl
  | ok record =>
    dsimp only
    change _ = (Wire.decode record : Except Error α).mapError Error.badKeyRecord
    cases (Wire.decode record : Except Error α) <;> rfl

end Read

section Decide

variable {fault : DeviceFault} {broken : Bool} {file record : Bytes}

/-- A file is too long, or it ends too early, or it is a record behind its length. -/
theorem recordIn_cases (fault : DeviceFault) (broken : Bool) (file : Bytes) :
    (IsTooLong file ∧ ∃ error, recordIn fault broken file = .error error ∧ error.IsBadKey) ∨
    (¬ IsTooLong file ∧ recordIn fault broken file = .error (cutOff fault broken)) ∨
    (¬ IsTooLong file ∧ IsFrame file (file.drop 4) ∧ recordIn fault broken file =
      if broken then .error (.device fault) else .ok (file.drop 4)) := by
  have hdrop : (file.drop 4).length = file.length - 4 := List.length_drop
  rw [recordIn, lastIn, hdrop, IsTooLong]
  -- The cases are those of the reader: the header, the declared length, the record, what follows.
  by_cases hshort : file.length < 4
  · rw [if_pos hshort]
    exact .inr (.inl ⟨fun h => absurd h.1 (Nat.not_le.2 hshort), rfl⟩)
  have hheader : 4 ≤ file.length := Nat.not_lt.1 hshort
  rw [if_neg hshort]
  by_cases hlarge : maxRecord < declared file
  · rw [if_pos hlarge]
    exact .inl ⟨⟨hheader, .inl hlarge⟩, _, rfl, trivial⟩
  rw [if_neg hlarge]
  by_cases hless : file.length - 4 < declared file
  · have hnot : ¬ 4 + declared file < file.length := by omega
    rw [if_pos hless]
    exact .inr (.inl ⟨fun h => h.2.elim hlarge hnot, rfl⟩)
  rw [if_neg hless]
  by_cases hmore : declared file < file.length - 4
  · have hlong : 4 + declared file < file.length := by omega
    rw [if_pos hmore]
    exact .inl ⟨⟨hheader, .inr hlong⟩, _, rfl, trivial⟩
  have hlength : declared file = (file.drop 4).length := by omega
  have hnot : ¬ 4 + declared file < file.length := by omega
  rw [if_neg hmore]
  refine .inr (.inr ⟨fun h => h.2.elim hlarge hnot, ?_, rfl⟩)
  refine ⟨file.take 4, (List.take_append_drop 4 file).symm, List.length_take_of_le hheader,
    hlength, ?_⟩
  exact hlength ▸ Nat.not_lt.1 hlarge

theorem recordIn_of_isFrame (hframe : IsFrame file record) :
    recordIn fault false file = .ok record := by
  obtain ⟨header, rfl, hheader, hlength, hle⟩ := hframe
  have hdrop : (header ++ record).drop 4 = record := by rw [← hheader, List.drop_left]
  have hdeclared : declared (header ++ record) = record.length := by
    rw [declared, ← hheader, List.take_left, hlength]
  have hlong : ¬ (header ++ record).length < 4 := by
    rw [List.length_append]
    omega
  rw [recordIn, if_neg hlong, hdeclared, if_neg (Nat.not_lt.2 hle), hdrop, lastIn,
    if_neg (Nat.lt_irrefl _), if_neg (Nat.lt_irrefl _)]
  rfl

theorem recordIn_eq_ok_iff :
    recordIn fault false file = .ok record ↔ IsFrame file record := by
  refine ⟨fun hrecord => ?_, recordIn_of_isFrame⟩
  obtain ⟨_, _, herror, _⟩ | ⟨_, herror⟩ | ⟨_, hframe, hok⟩ := recordIn_cases fault false file
  · rw [herror] at hrecord
    cases hrecord
  · rw [herror] at hrecord
    cases hrecord
  · rw [hok] at hrecord
    cases hrecord
    exact hframe

/-- A file that ends and is refused is a bad key. -/
theorem isBadKey_of_recordIn {error : Error} (hrecord : recordIn fault false file = .error error) :
    error.IsBadKey := by
  obtain ⟨_, _, herror, hbad⟩ | ⟨_, herror⟩ | ⟨_, _, hok⟩ := recordIn_cases fault false file
  · rw [herror] at hrecord
    cases hrecord
    exact hbad
  · rw [herror] at hrecord
    cases hrecord
    trivial
  · rw [hok] at hrecord
    cases hrecord

/-- A broken device is noticed before the end, unless the file is seen to be too long. -/
theorem recordIn_broken (hnot : ¬ IsTooLong file) :
    recordIn fault true file = .error (.device fault) := by
  obtain ⟨hlong, _⟩ | ⟨_, herror⟩ | ⟨_, _, herror⟩ := recordIn_cases fault true file
  · exact absurd hlong hnot
  · exact herror
  · exact herror

theorem exists_badKey_of_isTooLong (fault : DeviceFault) (broken : Bool)
    (hlong : IsTooLong file) :
    ∃ error, recordIn fault broken file = .error error ∧ error.IsBadKey := by
  obtain ⟨_, hbad⟩ | ⟨hnot, _⟩ | ⟨hnot, _⟩ := recordIn_cases fault broken file
  · exact hbad
  · exact absurd hlong hnot
  · exact absurd hlong hnot

end Decide

section Write

variable {α : Type} [Wire.Record α]

/-- The file of a key. -/
def fileOf (key : α) : Bytes :=
  Bytes.ofNatBE 4 (Wire.encode key).length ++ Wire.encode key

theorem writeAll_eq_ok {bytes : Bytes} {sink reached : Sink}
    (hwrite : writeAll bytes sink = (.ok (), reached)) : reached.taken = sink.taken ++ bytes := by
  obtain ⟨taken, limit⟩ := sink
  cases limit with
  | none =>
    cases hwrite
    rfl
  | some limit =>
    change ((if limit - taken.length < bytes.length then throw (.device .broken) else pure () :
      Writing Unit) ⟨taken ++ bytes.take (limit - taken.length), some limit⟩) = _ at hwrite
    by_cases hfull : limit - taken.length < bytes.length
    · rw [if_pos hfull] at hwrite
      cases hwrite
    · rw [if_neg hfull] at hwrite
      cases hwrite
      rw [List.take_of_length_le (Nat.not_lt.1 hfull)]

theorem frame_encode {key : α} (hsize : (Wire.encode key).length < UInt32.size) :
    frame (Wire.encode key) = .ok (fileOf key) := by
  rw [frame, ensure_of _ hsize]
  rfl

theorem isFrame_fileOf {key : α} (hsize : (Wire.encode key).length ≤ maxRecord) :
    IsFrame (fileOf key) (Wire.encode key) := by
  refine ⟨_, rfl, Bytes.length_ofNatBE _ _, ?_, hsize⟩
  rw [Bytes.toNatBE_ofNatBE]
  exact Nat.mod_eq_of_lt (hsize.trans_lt (by decide))

/-- A source that ends is read as a key exactly if its bytes are the record of this key behind its
    length. -/
theorem keyIn_eq_ok_iff {fault : DeviceFault} {source : Source} {key : α}
    (hends : source.broken = false) : keyIn fault source = .ok key ↔
      ∃ record, IsFrame source.bytes record ∧ Wire.decode record = .ok key := by
  rw [keyIn_eq, hends, bind_eq_ok_iff]
  refine exists_congr fun record => and_congr recordIn_eq_ok_iff ?_
  cases (Wire.decode record : Except Error α) <;> simp [Except.mapError]

theorem keyIn_fileOf {fault : DeviceFault} {source : Source} {key : α}
    (hsize : (Wire.encode key).length ≤ maxRecord)
    (hdecode : Wire.decode (Wire.encode key) = .ok key) (hends : source.broken = false)
    (hbytes : source.bytes = fileOf key) :
    keyIn fault source = .ok key := by
  rw [keyIn_eq_ok_iff hends, hbytes]
  exact ⟨_, isFrame_fileOf hsize, hdecode⟩

end Write

/-- How keys of a kind are read from files and written to them, whatever the device reports. -/
structure ReadsExactly (α : Type) [Wire.Record α] : Prop where
  /-- A source that ends gives a key exactly if its bytes are the record of this key behind its
      length. -/
  accepts_iff : ∀ (fault : DeviceFault) (source : Source) (key : α), source.broken = false →
    (keyIn fault source = .ok key ↔
      ∃ record, IsFrame source.bytes record ∧ Wire.decode record = .ok key)
  /-- Any other source that ends is a bad key. -/
  refuses : ∀ (fault : DeviceFault) (source : Source), source.broken = false →
    (¬ ∃ record, IsFrame source.bytes record ∧ ∃ key : α, Wire.decode record = .ok key) →
    ∃ error, (keyIn fault source : Except Error α) = .error error ∧ error.IsBadKey
  /-- A source that breaks is a bad key if it is seen to be too long. -/
  refuses_long : ∀ (fault : DeviceFault) (source : Source), source.broken = true →
    IsTooLong source.bytes →
    ∃ error, (keyIn fault source : Except Error α) = .error error ∧ error.IsBadKey
  /-- Any other source that breaks gives what the device reports. -/
  reports : ∀ (fault : DeviceFault) (source : Source), source.broken = true →
    ¬ IsTooLong source.bytes → (keyIn fault source : Except Error α) = .error (.device fault)
  /-- Where the bytes are cut into chunks does not matter. -/
  keyIn_congr : ∀ (fault : DeviceFault) (first second : Source), first.bytes = second.bytes →
    first.broken = second.broken → (keyIn fault first : Except Error α) = keyIn fault second
  /-- A key whose record is not too long is written, if there is room, and what was written is read
      as this key. -/
  written : ∀ key : α, (Wire.encode key).length ≤ maxRecord → ∃ file,
    (∀ taken, write key ⟨taken, none⟩ = (.ok (), ⟨taken ++ file, none⟩)) ∧
    (∀ sink reached, write key sink = (.ok (), reached) → reached.taken = sink.taken ++ file) ∧
    ∀ (fault : DeviceFault) (source : Source), source.broken = false → source.bytes = file →
      keyIn fault source = .ok key

theorem readsExactly_of_decode_encode {α : Type} [Wire.Record α]
    (hdecode : ∀ key : α, (Wire.encode key).length ≤ maxRecord →
      Wire.decode (Wire.encode key) = .ok key) : ReadsExactly α := by
  refine ⟨fun _ _ _ hends => keyIn_eq_ok_iff hends, ?_, ?_, ?_, ?_, ?_⟩
  · intro fault source hends hnone
    rw [keyIn_eq, hends]
    cases hrecord : recordIn fault false source.bytes with
    | error error => exact ⟨error, rfl, isBadKey_of_recordIn hrecord⟩
    | ok record =>
      cases hkey : (Wire.decode record : Except Error α) with
      | error cause =>
        refine ⟨.badKeyRecord cause, ?_, trivial⟩
        change (Wire.decode record : Except Error α).mapError Error.badKeyRecord = _
        rw [hkey]
        rfl
      | ok key => exact absurd ⟨record, recordIn_eq_ok_iff.1 hrecord, key, hkey⟩ hnone
  · intro fault source hbroken hlong
    obtain ⟨error, herror, hbad⟩ := exists_badKey_of_isTooLong fault true hlong
    rw [keyIn_eq, hbroken, herror]
    exact ⟨error, rfl, hbad⟩
  · intro fault source hbroken hnot
    rw [keyIn_eq, hbroken, recordIn_broken hnot]
    rfl
  · intro fault first second hbytes hbroken
    rw [keyIn_eq, keyIn_eq, hbytes, hbroken]
  · intro key hsize
    have hframe := frame_encode (hsize.trans_lt (by decide))
    refine ⟨fileOf key, fun taken => ?_, fun sink reached hwrite => ?_, ?_⟩
    · rw [write, hframe]
      rfl
    · rw [write, hframe] at hwrite
      exact writeAll_eq_ok hwrite
    · exact fun _ _ hends hbytes => keyIn_fileOf hsize (hdecode key hsize) hends hbytes

/-- A field within a record that is not too long can tell its length. -/
theorem isShort_of_length_le {bytes : Bytes} (hle : (Wire.field bytes).length ≤ maxRecord) :
    Wire.IsShort bytes := by
  have hlimit : maxRecord < 2 ^ 32 := by decide
  rw [Wire.length_field] at hle
  rw [Wire.IsShort]
  omega

theorem fits_group {group : Group} (hsize : (Wire.encode group).length ≤ maxRecord) :
    group.Fits := by
  have hlength : (Wire.encode group).length =
      (Wire.natField group.p ++ Wire.natField group.g).length + 2 := rfl
  rw [List.length_append] at hlength
  have hp : (Wire.natField group.p).length ≤ maxRecord := by omega
  have hg : (Wire.natField group.g).length ≤ maxRecord := by omega
  exact ⟨isShort_of_length_le hp, isShort_of_length_le hg⟩

theorem fits_nested_group {group : Group}
    (hsize : (Wire.nestedField group).length ≤ maxRecord) :
    group.Fits ∧ Wire.FitsNested group := by
  have hrecord : (Wire.nestedField group).length = 4 + (Wire.encode group).length :=
    Wire.length_field _
  exact ⟨fits_group (by omega), isShort_of_length_le hsize⟩

theorem fits_publicKey {key : PublicKey} (hsize : (Wire.encode key).length ≤ maxRecord) :
    key.Fits := by
  have hlength : (Wire.encode key).length = (Wire.nestedField key.group ++ Wire.natField key.f ++
      Wire.natField key.h).length + 2 := rfl
  rw [List.length_append, List.length_append] at hlength
  have hnested : (Wire.nestedField key.group).length ≤ maxRecord := by omega
  have hf : (Wire.natField key.f).length ≤ maxRecord := by omega
  have hh : (Wire.natField key.h).length ≤ maxRecord := by omega
  obtain ⟨hgroup, hrecord⟩ := fits_nested_group hnested
  exact ⟨hgroup, hrecord, isShort_of_length_le hf, isShort_of_length_le hh⟩

theorem fits_privateShare {share : PrivateShare}
    (hsize : (Wire.encode share).length ≤ maxRecord) : share.Fits := by
  have hlength : (Wire.encode share).length = (Wire.nestedField share.group ++
      Wire.wordField share.index ++ Wire.wordField share.threshold ++
      Wire.natField share.value).length + 2 := rfl
  rw [List.length_append, List.length_append, List.length_append] at hlength
  have hnested : (Wire.nestedField share.group).length ≤ maxRecord := by omega
  have hvalue : (Wire.natField share.value).length ≤ maxRecord := by omega
  obtain ⟨hgroup, hrecord⟩ := fits_nested_group hnested
  exact ⟨hgroup, hrecord, isShort_of_length_le hvalue⟩

theorem decode_encode_publicKey {key : PublicKey}
    (hsize : (Wire.encode key).length ≤ maxRecord) : Wire.decode (Wire.encode key) = .ok key :=
  Wire.decode_encode_of_reads (Wire.Decoder.reads_publicKey (fits_publicKey hsize))

theorem decode_encode_privateShare {share : PrivateShare}
    (hsize : (Wire.encode share).length ≤ maxRecord) :
    Wire.decode (Wire.encode share) = .ok share :=
  Wire.decode_encode_of_reads (Wire.Decoder.reads_privateShare (fits_privateShare hsize))

/-- Key files are read exactly, those of public keys and those of private shares. -/
theorem every_key_file_read_exactly : ReadsExactly PublicKey ∧ ReadsExactly PrivateShare :=
  ⟨readsExactly_of_decode_encode fun _ => decode_encode_publicKey,
    readsExactly_of_decode_encode fun _ => decode_encode_privateShare⟩

/-- The file of a key is read as this key when it comes in two chunks, and as nothing when its
    device breaks behind it. -/
theorem every_key_file_read_exactly_small :
    (Wire.encode PublicKey.small).length ≤ maxRecord ∧
      (keyIn .noSuchFile ⟨[(fileOf PublicKey.small).take 3, (fileOf PublicKey.small).drop 3],
        false⟩ = .ok PublicKey.small) ∧
      (keyIn .noSuchFile ⟨[fileOf PublicKey.small], true⟩ : Except Error PublicKey) =
        .error (.device .noSuchFile) := by
  obtain ⟨hexact, _⟩ := every_key_file_read_exactly
  have hsize : (Wire.encode PublicKey.small).length ≤ maxRecord := by decide
  have hshort : ¬ IsTooLong (fileOf PublicKey.small) := by
    rw [IsTooLong]
    decide
  have hframe : IsFrame (Source.bytes ⟨[(fileOf PublicKey.small).take 3,
      (fileOf PublicKey.small).drop 3], false⟩) (Wire.encode PublicKey.small) :=
    ⟨(fileOf PublicKey.small).take 4, by decide⟩
  refine ⟨hsize, (hexact.accepts_iff _ _ _ rfl).2 ⟨_, hframe, decode_encode_publicKey hsize⟩, ?_⟩
  refine hexact.reports _ _ rfl ?_
  rwa [Source.bytes, List.flatten_cons, List.flatten_nil, List.append_nil]

end KeyFile

end SecretBallot
