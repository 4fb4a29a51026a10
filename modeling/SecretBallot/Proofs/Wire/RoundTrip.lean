import Mathlib
import SecretBallot.Wire.Record
import SecretBallot.Proofs.Wire.Reader

namespace SecretBallot

section Fits

open Wire

/-- A record can be a field of another one. -/
def Wire.FitsNested {α : Type} [Record α] (value : α) : Prop :=
  IsShort (encode value)

/-- Every number of a group, and likewise every field and every nested record of the kinds below, is
    shorter than `2 ^ 32` bytes. -/
def Group.Fits (group : Group) : Prop :=
  IsShort (Bytes.ofNat group.p) ∧ IsShort (Bytes.ofNat group.g)

def PublicKey.Fits (key : PublicKey) : Prop :=
  key.group.Fits ∧ FitsNested key.group ∧ IsShort (Bytes.ofNat key.f) ∧ IsShort (Bytes.ofNat key.h)

def PrivateShare.Fits (share : PrivateShare) : Prop :=
  share.group.Fits ∧ FitsNested share.group ∧ IsShort (Bytes.ofNat share.value)

def Ciphertext.Fits (ciphertext : Ciphertext) : Prop :=
  IsShort (Bytes.ofNat ciphertext.pad) ∧ IsShort (Bytes.ofNat ciphertext.data)

/-- The number of elements of a list is a word, here and for the votes and the races below. -/
def MembershipProof.Fits (proof : MembershipProof) : Prop :=
  proof.challenges.length < 2 ^ 64 ∧
    ∀ n ∈ proof.challenges ++ proof.responses, IsShort (Bytes.ofNat n)

def SumProof.Fits (proof : SumProof) : Prop :=
  IsShort (Bytes.ofNat proof.challenge) ∧ IsShort (Bytes.ofNat proof.response)

def SealedVote.Fits (vote : SealedVote) : Prop :=
  (vote.ciphertext.Fits ∧ FitsNested vote.ciphertext) ∧ vote.proof.Fits ∧ FitsNested vote.proof

def SealedRace.Fits (race : SealedRace) : Prop :=
  IsShort (Bytes.ofText race.name) ∧ race.votes.size < 2 ^ 64 ∧
    (∀ entry ∈ race.votes.entries, IsShort (Bytes.ofText entry.1) ∧ entry.2.Fits) ∧
    race.sumProof.Fits ∧ FitsNested race.sumProof

def SealedBallot.Fits (ballot : SealedBallot) : Prop :=
  IsShort (Bytes.ofText ballot.id) ∧ IsShort ballot.nonce ∧ ballot.races.length < 2 ^ 64 ∧
    ∀ race ∈ ballot.races, race.Fits

/-- A membership proof has as many responses as challenges. -/
def MembershipProof.IsPaired (proof : MembershipProof) : Prop :=
  proof.responses.length = proof.challenges.length

/-- Every membership proof on a race has as many responses as challenges. -/
def SealedRace.IsPaired (race : SealedRace) : Prop :=
  ∀ entry ∈ race.votes.entries, entry.2.proof.IsPaired

def SealedBallot.IsPaired (ballot : SealedBallot) : Prop :=
  ∀ race ∈ ballot.races, race.IsPaired

instance {α : Type} [Record α] : DecidablePred (FitsNested (α := α)) :=
  fun value => inferInstanceAs (Decidable (IsShort (encode value)))

instance : DecidablePred Ciphertext.Fits := fun _ => inferInstanceAs (Decidable (_ ∧ _))

instance : DecidablePred MembershipProof.Fits := fun _ => inferInstanceAs (Decidable (_ ∧ _))

instance : DecidablePred SumProof.Fits := fun _ => inferInstanceAs (Decidable (_ ∧ _))

instance : DecidablePred SealedVote.Fits := fun _ => inferInstanceAs (Decidable (_ ∧ _))

instance : DecidablePred SealedRace.Fits := fun _ => inferInstanceAs (Decidable (_ ∧ _))

instance : DecidablePred SealedBallot.Fits := fun _ => inferInstanceAs (Decidable (_ ∧ _))

instance : DecidablePred MembershipProof.IsPaired := fun _ => inferInstanceAs (Decidable (_ = _))

instance : DecidablePred SealedRace.IsPaired :=
  fun race => inferInstanceAs (Decidable (∀ entry ∈ race.votes.entries, entry.2.proof.IsPaired))

instance : DecidablePred SealedBallot.IsPaired :=
  fun ballot => inferInstanceAs (Decidable (∀ race ∈ ballot.races, race.IsPaired))

end Fits

theorem Group.new_self (group : Group) : Group.new group.p group.g = .ok group := by
  rw [Group.new, dif_pos ⟨group.five_le_p, group.p_odd⟩, dif_pos group.p_safe,
    dif_pos ⟨group.one_lt_g, group.g_lt_p⟩, dif_pos group.g_order]

theorem PublicKey.new_self (key : PublicKey) : PublicKey.new key.group key.f key.h = .ok key := by
  rw [PublicKey.new, dif_pos key.f_generates, dif_pos key.h_generates]

theorem PrivateShare.new_self (share : PrivateShare) :
    PrivateShare.new share.group share.index share.threshold share.value = .ok share := by
  rw [PrivateShare.new, dif_pos ⟨share.index_ne_zero, share.threshold_ne_zero⟩,
    dif_pos share.index_lt_q, dif_pos share.value_lt_q]

namespace Wire

variable {α : Type} [Record α]

/-- Behind the right header a record is what its fields are, if they take all that follows. -/
theorem decode_record (rest : Bytes) :
    (decode (record (Record.tag α) rest) : Except Error α) =
      match (Record.read : Decoder α) ⟨2, rest⟩ with
      | (.ok value, reached) =>
        if reached.rest = [] then .ok value
        else .error (.malformed (.trailing reached.rest.length))
      | (.error error, _) => .error error := by
  have hnew : Reader.new (Record.tag α) (record (Record.tag α) rest) = .ok ⟨2, rest⟩ := by
    rw [record, Reader.new, ensure_of _ rfl, ensure_of _ rfl]
    rfl
  rw [decode, hnew]
  dsimp only [bind, Except.bind]
  rcases (Record.read : Decoder α) ⟨2, rest⟩ with ⟨outcome, reached⟩
  cases outcome with
  | error error => rfl
  | ok value =>
    dsimp only
    rw [Reader.finish, ensure]
    by_cases hend : reached.rest = []
    · rw [if_pos hend, if_pos hend]
      rfl
    · rw [if_neg hend, if_neg hend]

/-- How decoding ends: the fields are read to the end, they are refused, or the header or what
    stands behind the fields is malformed. -/
theorem decode_cases (bytes : Bytes) :
    (∃ rest offset value, bytes = record (Record.tag α) rest ∧
      (Record.read : Decoder α) ⟨2, rest⟩ = (.ok value, ⟨offset, []⟩) ∧ decode bytes = .ok value) ∨
    (∃ rest error stopped, bytes = record (Record.tag α) rest ∧
      (Record.read : Decoder α) ⟨2, rest⟩ = (.error error, stopped) ∧
      (decode bytes : Except Error α) = .error error) ∨
    ∃ fault, (decode bytes : Except Error α) = .error (.malformed fault) := by
  match bytes with
  | [] => exact .inr (.inr ⟨_, rfl⟩)
  | [_] => exact .inr (.inr ⟨_, rfl⟩)
  | found :: foundVersion :: rest =>
    by_cases htag : found = Record.tag α
    · by_cases hversion : foundVersion = version
      · subst htag hversion
        have hdecode := decode_record (α := α) rest
        rw [record] at hdecode
        rcases hread : (Record.read : Decoder α) ⟨2, rest⟩ with ⟨outcome, offset, left⟩
        rw [hread] at hdecode
        cases outcome with
        | error error => exact .inr (.inl ⟨rest, error, _, rfl, hread, hdecode⟩)
        | ok value =>
          dsimp only at hdecode
          by_cases hend : left = []
          · subst hend
            exact .inl ⟨rest, offset, value, rfl, hread, hdecode⟩
          · rw [if_neg hend] at hdecode
            exact .inr (.inr ⟨_, hdecode⟩)
      · refine .inr (.inr ⟨.wrongVersion foundVersion, ?_⟩)
        rw [decode, Reader.new, ensure_of _ htag, ensure, if_neg hversion]
        rfl
    · refine .inr (.inr ⟨.wrongTag (Record.tag α) found, ?_⟩)
      rw [decode, Reader.new, ensure, if_neg htag]
      rfl

/-- A record is decoded if its fields are read and nothing is left. -/
theorem decode_encode_of_reads {value : α}
    (hread : (Record.read : Decoder α).Reads (Record.fields value) value) :
    decode (encode value) = .ok value := by
  have hall := hread 2 []
  rw [List.append_nil] at hall
  rw [encode, decode_record, hall]
  rfl

theorem decode_eq_ok_iff_read {bytes : Bytes} {value : α} : decode bytes = .ok value ↔
    ∃ rest offset, bytes = record (Record.tag α) rest ∧
      (Record.read : Decoder α) ⟨2, rest⟩ = (.ok value, ⟨offset, []⟩) := by
  constructor
  · intro hdecode
    rcases decode_cases (α := α) bytes with ⟨rest, offset, found, hbytes, hread, hfound⟩ |
      ⟨_, _, _, _, _, herror⟩ | ⟨_, herror⟩
    · rw [hdecode] at hfound
      cases hfound
      exact ⟨rest, offset, hbytes, hread⟩
    · rw [hdecode] at herror
      cases herror
    · rw [hdecode] at herror
      cases herror
  · rintro ⟨rest, offset, rfl, hread⟩
    rw [decode_record, hread]
    rfl

namespace Decoder

theorem reads_nested {value : α}
    (hread : (Record.read : Decoder α).Reads (Record.fields value) value)
    (hfits : FitsNested value) : (nested : Decoder α).Reads (nestedField value) value :=
  (reads_field hfits).bind_last (reads_lift (decode_encode_of_reads hread))

theorem reads_group {group : Group} (hfits : group.Fits) :
    (Record.read : Decoder Group).Reads (Record.fields group) group :=
  (reads_nat hfits.1).bind ((reads_nat hfits.2).bind_last (reads_lift group.new_self))

theorem reads_publicKey {key : PublicKey} (hfits : key.Fits) :
    (Record.read : Decoder PublicKey).Reads (Record.fields key) key := by
  obtain ⟨hgroup, hnested, hf, hh⟩ := hfits
  change Reads _ (nestedField key.group ++ natField key.f ++ natField key.h) key
  rw [List.append_assoc]
  exact (reads_nested (reads_group hgroup) hnested).bind
    ((reads_nat hf).bind ((reads_nat hh).bind_last (reads_lift key.new_self)))

theorem reads_privateShare {share : PrivateShare} (hfits : share.Fits) :
    (Record.read : Decoder PrivateShare).Reads (Record.fields share) share := by
  obtain ⟨hgroup, hnested, hvalue⟩ := hfits
  change Reads _ (nestedField share.group ++ wordField share.index ++ wordField share.threshold
    ++ natField share.value) share
  rw [List.append_assoc, List.append_assoc]
  exact (reads_nested (reads_group hgroup) hnested).bind
    ((reads_word share.index).bind ((reads_word share.threshold).bind
      ((reads_nat hvalue).bind_last (reads_lift share.new_self))))

theorem reads_ciphertext {ciphertext : Ciphertext} (hfits : ciphertext.Fits) :
    (Record.read : Decoder Ciphertext).Reads (Record.fields ciphertext) ciphertext :=
  (reads_nat hfits.1).bind ((reads_nat hfits.2).bind_last (reads_pure _))

theorem reads_sumProof {proof : SumProof} (hfits : proof.Fits) :
    (Record.read : Decoder SumProof).Reads (Record.fields proof) proof :=
  (reads_nat hfits.1).bind ((reads_nat hfits.2).bind_last (reads_pure _))

theorem reads_membershipProof {proof : MembershipProof} (hpaired : proof.IsPaired)
    (hfits : proof.Fits) :
    (Record.read : Decoder MembershipProof).Reads (Record.fields proof) proof := by
  obtain ⟨hcount, hshort⟩ := hfits
  have hnats (values : List Nat) (hvalues : ∀ n ∈ values, IsShort (Bytes.ofNat n)) :
      (repeated nat values.length).Reads (values.flatMap natField) values :=
    reads_repeated fun n hmem => reads_nat (hvalues n hmem)
  -- The count is that of the challenges alone; what follows it is even longer.
  have hroom : 4 * proof.challenges.length ≤
      ((proof.challenges ++ proof.responses).flatMap natField).length := by
    have hall : 4 * (proof.challenges ++ proof.responses).length ≤ _ :=
      four_mul_length_le fun n _ => four_le_length_field (Bytes.ofNat n)
    rw [List.length_append] at hall
    exact le_trans (by omega) hall
  refine Reads.countField_bind hcount hroom ?_
  rw [List.flatMap_append]
  have hresponses := hnats proof.responses fun n hmem => hshort n (List.mem_append_right _ hmem)
  rw [MembershipProof.IsPaired] at hpaired
  rw [hpaired] at hresponses
  exact (hnats proof.challenges fun n hmem => hshort n (List.mem_append_left _ hmem)).bind
    (hresponses.bind_last (reads_pure _))

theorem reads_vote {candidate : String} {vote : SealedVote}
    (hcandidate : IsShort (Bytes.ofText candidate)) (hpaired : vote.proof.IsPaired)
    (hfits : vote.Fits) : Decoder.vote.Reads (voteFields candidate vote) (candidate, vote) := by
  obtain ⟨⟨hciphertext, hnested⟩, hproof, hnestedProof⟩ := hfits
  rw [voteFields, List.append_assoc]
  exact (reads_text hcandidate).bind
    ((reads_nested (reads_ciphertext hciphertext) hnested).bind
      ((reads_nested (reads_membershipProof hpaired hproof) hnestedProof).bind_last (reads_pure _)))

/-- Votes for distinct candidates, none of whom was found before, are read one by one. -/
theorem reads_votes (race : String) {entries : List (String × SealedVote)}
    (hread : ∀ entry ∈ entries, Decoder.vote.Reads (voteFields entry.1 entry.2) entry)
    (hkeys : (entries.map (·.1)).Nodup) {found : Dict String SealedVote}
    (hnew : ∀ candidate ∈ entries.map (·.1), found.get? candidate = none) :
    (votes race entries.length found).Reads
      (entries.flatMap fun (candidate, vote) => voteFields candidate vote)
      (entries.foldl (fun found entry => found.insert entry.1 entry.2) found) := by
  induction entries generalizing found with
  | nil => exact reads_pure found
  | cons entry rest ih =>
    obtain ⟨hentry, hrest⟩ := List.forall_mem_cons.1 hread
    rw [List.map_cons] at hkeys hnew
    obtain ⟨hfree, hkeys, hlater⟩ := (Dict.vacant_cons_iff entry.2).1 ⟨hkeys, hnew⟩
    rw [List.flatMap_cons, List.foldl_cons]
    refine hentry.bind ?_
    change Reads (if found.contains entry.1 then
        throw (.malformed (.candidateTwice race))
      else votes race rest.length (found.insert entry.1 entry.2)) _ _
    rw [if_neg (Dict.not_contains_iff.2 hfree)]
    exact ih hrest hkeys hlater

theorem reads_race {race : SealedRace} (hpaired : race.IsPaired) (hfits : race.Fits) :
    Decoder.race.Reads (raceFields race) race := by
  obtain ⟨hname, hcount, hentries, hproof, hnested⟩ := hfits
  have hvotes : (votes race.name race.votes.size ∅).Reads
      (race.votes.entries.flatMap fun (candidate, vote) => voteFields candidate vote)
      (Dict.ofList race.votes.entries) :=
    reads_votes race.name (fun entry hmem =>
      reads_vote (hentries entry hmem).1 (hpaired entry hmem) (hentries entry hmem).2)
      race.votes.keys_nodup fun _ _ => Dict.get?_empty _
  rw [Dict.ofList_entries] at hvotes
  have hroom : 4 * race.votes.size ≤ ((race.votes.entries.flatMap fun (candidate, vote) =>
      voteFields candidate vote) ++ nestedField race.sumProof).length := by
    rw [List.length_append]
    refine (four_mul_length_le fun entry _ => ?_).trans (Nat.le_add_right _ _)
    change 4 ≤ (textField entry.1 ++ _ ++ _).length
    rw [List.append_assoc, List.length_append]
    exact (four_le_length_field _).trans (Nat.le_add_right _ _)
  rw [raceFields, List.append_assoc, List.append_assoc, List.append_assoc]
  exact (reads_text hname).bind ((reads_word race.limit).bind (Reads.countField_bind hcount hroom
    (hvotes.bind ((reads_nested (reads_sumProof hproof) hnested).bind_last (reads_pure _)))))

theorem reads_ballot {ballot : SealedBallot} (hpaired : ballot.IsPaired) (hfits : ballot.Fits) :
    (Record.read : Decoder SealedBallot).Reads (Record.fields ballot) ballot := by
  obtain ⟨hid, hnonce, hcount, hraces⟩ := hfits
  have hroom : 4 * ballot.races.length ≤ (ballot.races.flatMap raceFields).length := by
    refine four_mul_length_le fun race _ => ?_
    rw [raceFields, List.append_assoc, List.append_assoc, List.append_assoc, List.length_append]
    exact (four_le_length_field _).trans (Nat.le_add_right _ _)
  have hrepeated : (repeated race ballot.races.length).Reads _ ballot.races :=
    reads_repeated fun race hmem => reads_race (hpaired race hmem) (hraces race hmem)
  change Reads _ (textField ballot.id ++ Wire.field ballot.nonce ++ countField ballot.races.length
    ++ ballot.races.flatMap raceFields) ballot
  rw [List.append_assoc, List.append_assoc]
  exact (reads_text hid).bind ((reads_field hnonce).bind
    (Reads.countField_bind hcount hroom (hrepeated.bind_last (reads_pure _))))

end Decoder

/-- Writing and reading again gives the value, so that no other value is written the same way. -/
structure RoundTrips (fits : α → Prop) : Prop where
  decode_encode : ∀ value, fits value → decode (encode value) = .ok value
  encode_inj : ∀ value other, fits value → fits other → encode value = encode other → value = other

theorem RoundTrips.of_reads {fits : α → Prop}
    (hread : ∀ value, fits value → (Record.read : Decoder α).Reads (Record.fields value) value) :
    RoundTrips fits := by
  refine ⟨fun value hfits => decode_encode_of_reads (hread value hfits), ?_⟩
  intro value other hvalue hother hencode
  have hdecode := decode_encode_of_reads (hread value hvalue)
  rw [hencode, decode_encode_of_reads (hread other hother)] at hdecode
  exact (Except.ok.inj hdecode).symm

/-- Every kind of record is read back as it was written, provided that its fields are short enough
    and its membership proofs have as many responses as challenges. -/
theorem every_record_roundTrips :
    RoundTrips Group.Fits ∧ RoundTrips PublicKey.Fits ∧ RoundTrips PrivateShare.Fits ∧
      RoundTrips Ciphertext.Fits ∧ RoundTrips SumProof.Fits ∧
      RoundTrips (fun proof : MembershipProof => proof.IsPaired ∧ proof.Fits) ∧
      RoundTrips (fun ballot : SealedBallot => ballot.IsPaired ∧ ballot.Fits) :=
  ⟨.of_reads fun _ => Decoder.reads_group, .of_reads fun _ => Decoder.reads_publicKey,
    .of_reads fun _ => Decoder.reads_privateShare, .of_reads fun _ => Decoder.reads_ciphertext,
    .of_reads fun _ => Decoder.reads_sumProof,
    .of_reads fun _ hproof => Decoder.reads_membershipProof hproof.1 hproof.2,
    .of_reads fun _ hballot => Decoder.reads_ballot hballot.1 hballot.2⟩

/-- A ballot without a name and without a nonce, with zeros and a race without candidates. -/
def bareBallot : SealedBallot :=
  ⟨"", [], [⟨"", 0, ∅, ⟨0, 0⟩⟩,
    ⟨"mayor", 1, Dict.ofList [("ann", ⟨⟨0, 3⟩, ⟨[0, 5], [256, 0]⟩⟩),
      ("", ⟨⟨1, 0⟩, ⟨[], []⟩⟩)], ⟨0, 7⟩⟩]⟩

theorem every_record_roundTrips_bareBallot :
    bareBallot.IsPaired ∧ bareBallot.Fits ∧ decode (encode bareBallot) = .ok bareBallot := by
  have hpaired : bareBallot.IsPaired := by decide +kernel
  have hfits : bareBallot.Fits := by decide +kernel
  obtain ⟨_, _, _, _, _, _, hballot⟩ := every_record_roundTrips
  exact ⟨hpaired, hfits, hballot.decode_encode bareBallot ⟨hpaired, hfits⟩⟩

end Wire

end SecretBallot
