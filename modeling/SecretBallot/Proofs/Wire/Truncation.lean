import Mathlib
import SecretBallot.Proofs.Wire.RoundTrip

namespace SecretBallot

namespace Wire

namespace Decoder

variable {α β : Type}

/-- A decoder that the input behind what it takes does not matter to. -/
structure Steady (decoder : Decoder α) : Prop where
  /-- More input is left as it is. -/
  extend : ∀ {offset bytes value reached} (more : Bytes),
    decoder ⟨offset, bytes⟩ = (.ok value, reached) →
    decoder ⟨offset, bytes ++ more⟩ = (.ok value, ⟨reached.offset, reached.rest ++ more⟩)
  /-- Less input is enough, or malformed. -/
  cut : ∀ {offset front back value reached},
    decoder ⟨offset, front ++ back⟩ = (.ok value, reached) →
    (∃ left, reached.rest = left ++ back ∧
      decoder ⟨offset, front⟩ = (.ok value, ⟨reached.offset, left⟩)) ∨
    ∃ fault stopped, decoder ⟨offset, front⟩ = (.error (.malformed fault), stopped)

/-- A check reads nothing, so the input does not matter to it. -/
theorem steady_lift (outcome : Except Error α) : (liftM outcome : Decoder α).Steady := by
  cases outcome with
  | error error =>
    constructor
    · intro offset bytes value reached more hrun
      cases hrun
    · intro offset front back value reached hrun
      cases hrun
  | ok found =>
    constructor
    · intro offset bytes value reached more hrun
      cases hrun
      rfl
    · intro offset front back value reached hrun
      cases hrun
      exact .inl ⟨front, rfl, rfl⟩

theorem steady_pure (value : α) : (pure value : Decoder α).Steady :=
  steady_lift (.ok value)

theorem steady_throw (error : Error) : (throw error : Decoder α).Steady :=
  steady_lift (.error error)

theorem Steady.bind {decoder : Decoder α} {next : α → Decoder β} (hfirst : decoder.Steady)
    (hnext : ∀ value, (next value).Steady) : (decoder >>= next).Steady where
  extend := by
    intro offset bytes result reached more hrun
    obtain ⟨value, between, hvalue, hresult⟩ := bind_eq_ok_iff.1 hrun
    exact bind_eq_ok_iff.2 ⟨value, _, hfirst.extend more hvalue, (hnext value).extend more hresult⟩
  cut := by
    intro offset front back result reached hrun
    obtain ⟨value, ⟨middle, rest⟩, hvalue, hresult⟩ := bind_eq_ok_iff.1 hrun
    rcases hfirst.cut hvalue with ⟨left, hrest, hshort⟩ | ⟨fault, stopped, hfault⟩
    · dsimp only at hrest hshort
      subst hrest
      rw [bind_of_ok hshort]
      exact (hnext value).cut hresult
    · refine .inr ⟨fault, stopped, ?_⟩
      rw [bind_apply, hfault]

/-- What reads an input to the end does not read a shorter or a longer one to the end. -/
theorem Steady.not_to_end {decoder : Decoder α} (hsteady : decoder.Steady) {offset : Nat}
    {bytes other : Bytes} {value : α} {reached : Reader}
    (hrun : decoder ⟨offset, bytes⟩ = (.ok value, reached)) (hend : reached.rest = [])
    (hne : other ≠ bytes) (hcomparable : other <+: bytes ∨ bytes <+: other) :
    (∃ found stopped, decoder ⟨offset, other⟩ = (.ok found, stopped) ∧ stopped.rest ≠ []) ∨
      ∃ fault stopped, decoder ⟨offset, other⟩ = (.error (.malformed fault), stopped) := by
  rcases hcomparable with ⟨back, rfl⟩ | ⟨more, rfl⟩
  · rcases hsteady.cut hrun with ⟨left, hrest, -⟩ | hfault
    · have hback : back = [] := (List.append_eq_nil_iff.1 (hrest.symm.trans hend)).2
      rw [hback, List.append_nil] at hne
      exact absurd rfl hne
    · exact .inr hfault
  · refine .inl ⟨value, _, hsteady.extend more hrun, ?_⟩
    intro hnil
    rw [(List.append_eq_nil_iff.1 hnil).2, List.append_nil] at hne
    exact hne rfl

theorem steady_take (count : Nat) : (take count).Steady where
  extend := by
    intro offset bytes value reached more hrun
    rw [take_apply] at hrun ⊢
    dsimp only at hrun ⊢
    split at hrun
    · cases hrun
    · next henough =>
      cases hrun
      have hle : count ≤ bytes.length := Nat.le_of_not_lt henough
      have hmore : ¬ (bytes ++ more).length < count := by
        rw [List.length_append]
        omega
      rw [if_neg hmore, List.take_append_of_le_length hle, List.drop_append_of_le_length hle]
  cut := by
    intro offset front back value reached hrun
    rw [take_apply] at hrun ⊢
    dsimp only at hrun ⊢
    split at hrun
    · cases hrun
    · cases hrun
      by_cases hshort : front.length < count
      · rw [if_pos hshort]
        exact .inr ⟨_, _, rfl⟩
      · have hle : count ≤ front.length := Nat.le_of_not_lt hshort
        rw [if_neg hshort, List.take_append_of_le_length hle, List.drop_append_of_le_length hle]
        exact .inl ⟨_, rfl, rfl⟩

theorem steady_field : field.Steady :=
  (steady_take 4).bind fun length => steady_take length.toNatBE

theorem steady_nat : nat.Steady :=
  steady_field.bind fun bytes => steady_pure bytes.toNatBE

theorem steady_text : text.Steady := by
  refine steady_field.bind fun bytes => ?_
  split
  · exact steady_pure _
  · exact steady_throw _

theorem steady_word : word.Steady := by
  refine steady_field.bind fun bytes => ?_
  split
  · exact steady_pure _
  · exact steady_throw _

/-- A number that there is room for has it in front of more input as well. In front of less it may
    be turned down, and then as malformed. -/
theorem steady_roomFor (n : UInt64) : (roomFor n).Steady where
  extend := by
    intro offset bytes value reached more hrun
    rw [roomFor_apply] at hrun ⊢
    split at hrun
    · next hfits =>
      cases hrun
      have hroom : n.toNat ≤ (bytes ++ more).length / 4 := by
        rw [List.length_append]
        dsimp only at hfits
        omega
      rw [if_pos hroom]
    · cases hrun
  cut := by
    intro offset front back value reached hrun
    rw [roomFor_apply] at hrun ⊢
    split at hrun
    · cases hrun
      split
      · exact .inl ⟨front, rfl, rfl⟩
      · exact .inr ⟨_, _, rfl⟩
    · cases hrun

theorem steady_count : count.Steady :=
  steady_word.bind steady_roomFor

theorem Steady.repeated {element : Decoder α} (helement : element.Steady) (n : Nat) :
    (repeated element n).Steady := by
  induction n with
  | zero => exact steady_pure []
  | succ n ih => exact helement.bind fun first => ih.bind fun rest => steady_pure _

/-- A nested record sees its own field only, so what follows the field does not matter to it. -/
theorem steady_nested [Record α] : (nested : Decoder α).Steady :=
  steady_field.bind fun bytes => steady_lift (decode bytes)

theorem steady_vote : vote.Steady :=
  steady_text.bind fun _ => steady_nested.bind fun _ => steady_nested.bind fun _ => steady_pure _

theorem steady_votes (race : String) (n : Nat) (found : Dict String SealedVote) :
    (votes race n found).Steady := by
  induction n generalizing found with
  | zero => exact steady_pure found
  | succ n ih =>
    refine steady_vote.bind fun entry => ?_
    change Steady (if found.contains entry.1 then throw (.malformed (.candidateTwice race))
      else votes race n (found.insert entry.1 entry.2))
    split
    · exact steady_throw _
    · exact ih _

theorem steady_race : race.Steady :=
  steady_text.bind fun name => steady_word.bind fun _ => steady_count.bind fun n =>
    (steady_votes name n ∅).bind fun _ => steady_nested.bind fun _ => steady_pure _

theorem steady_group : (Record.read : Decoder Group).Steady :=
  steady_nat.bind fun p => steady_nat.bind fun g => steady_lift (Group.new p g)

theorem steady_publicKey : (Record.read : Decoder PublicKey).Steady :=
  steady_nested.bind fun group => steady_nat.bind fun f => steady_nat.bind fun h =>
    steady_lift (PublicKey.new group f h)

theorem steady_privateShare : (Record.read : Decoder PrivateShare).Steady :=
  steady_nested.bind fun group => steady_word.bind fun index => steady_word.bind fun threshold =>
    steady_nat.bind fun value => steady_lift (PrivateShare.new group index threshold value)

theorem steady_ciphertext : (Record.read : Decoder Ciphertext).Steady :=
  steady_nat.bind fun _ => steady_nat.bind fun _ => steady_pure _

theorem steady_membershipProof : (Record.read : Decoder MembershipProof).Steady :=
  steady_count.bind fun n => (steady_nat.repeated n).bind fun _ => (steady_nat.repeated n).bind
    fun _ => steady_pure _

theorem steady_sumProof : (Record.read : Decoder SumProof).Steady :=
  steady_nat.bind fun _ => steady_nat.bind fun _ => steady_pure _

theorem steady_ballot : (Record.read : Decoder SealedBallot).Steady :=
  steady_text.bind fun _ => steady_field.bind fun _ => steady_count.bind fun n =>
    (steady_race.repeated n).bind fun _ => steady_pure _

end Decoder

/-- The strings that are records of a kind. -/
def accepted (α : Type) [Record α] : Set Bytes :=
  {bytes | ∃ value : α, decode bytes = .ok value}

/-- A record of a kind is malformed as soon as it is cut off or something follows it. -/
def Delimited (α : Type) [Record α] : Prop :=
  ∀ bytes ∈ accepted α, ∀ other, other ≠ bytes → (other <+: bytes ∨ bytes <+: other) →
    ∃ fault, (decode other : Except Error α) = .error (.malformed fault)

section Records

variable {α β : Type} [Record α] [Record β]

theorem delimited_of_steady (hsteady : (Record.read : Decoder α).Steady) : Delimited α := by
  rintro bytes ⟨value, hvalue⟩ other hne hcomparable
  obtain ⟨rest, offset, rfl, hread⟩ := decode_eq_ok_iff_read.1 hvalue
  -- A string with the same header has other fields, shorter or longer ones.
  have hfields {left : Bytes} (hother : other = record (Record.tag α) left) :
      left ≠ rest ∧ (left <+: rest ∨ rest <+: left) := by
    subst hother
    refine ⟨fun heq => hne (heq ▸ rfl), ?_⟩
    rcases hcomparable with hcomparable | hcomparable
    · exact .inl ((List.prefix_cons_inj _).1 ((List.prefix_cons_inj _).1 hcomparable))
    · exact .inr ((List.prefix_cons_inj _).1 ((List.prefix_cons_inj _).1 hcomparable))
  rcases decode_cases (α := α) other with ⟨left, stop, _, hother, hleft, -⟩ |
    ⟨left, error, stopped, hother, hleft, herror⟩ | hfault
  · obtain ⟨hne, hcomparable⟩ := hfields hother
    rcases hsteady.not_to_end hread rfl hne hcomparable with ⟨_, _, hlonger, hmore⟩ | ⟨_, _, hfault⟩
    · rw [hleft] at hlonger
      cases hlonger
      exact absurd rfl hmore
    · rw [hleft] at hfault
      cases hfault
  · obtain ⟨hne, hcomparable⟩ := hfields hother
    rcases hsteady.not_to_end hread rfl hne hcomparable with ⟨_, _, hlonger, _⟩ | ⟨fault, _, hfault⟩
    · rw [hleft] at hlonger
      cases hlonger
    · rw [hleft] at hfault
      cases hfault
      exact ⟨fault, herror⟩
  · exact hfault

theorem head_of_mem_accepted {bytes : Bytes} (hbytes : bytes ∈ accepted α) :
    bytes.head? = some (Record.tag α) := by
  obtain ⟨value, hvalue⟩ := hbytes
  obtain ⟨rest, _, rfl, _⟩ := decode_eq_ok_iff_read.1 hvalue
  rfl

/-- The tag in front says which kind a record is of. -/
theorem disjoint_accepted (htag : Record.tag α ≠ Record.tag β) :
    Disjoint (accepted α) (accepted β) := by
  rw [Set.disjoint_left]
  intro bytes hα hβ
  have hhead := head_of_mem_accepted hα
  rw [head_of_mem_accepted hβ, Option.some.injEq] at hhead
  exact htag hhead.symm

end Records

/-- No record can be cut off, carry more than its fields or pass for a record of another kind. -/
theorem every_record_delimited :
    (Delimited Group ∧ Delimited PublicKey ∧ Delimited PrivateShare ∧ Delimited Ciphertext ∧
      Delimited MembershipProof ∧ Delimited SumProof ∧ Delimited SealedBallot) ∧
    [accepted Group, accepted PublicKey, accepted PrivateShare, accepted Ciphertext,
      accepted MembershipProof, accepted SumProof, accepted SealedBallot].Pairwise Disjoint := by
  refine ⟨⟨delimited_of_steady Decoder.steady_group, delimited_of_steady Decoder.steady_publicKey,
    delimited_of_steady Decoder.steady_privateShare, delimited_of_steady Decoder.steady_ciphertext,
    delimited_of_steady Decoder.steady_membershipProof, delimited_of_steady Decoder.steady_sumProof,
    delimited_of_steady Decoder.steady_ballot⟩, ?_⟩
  simp only [List.pairwise_cons, List.forall_mem_cons, List.not_mem_nil, false_implies,
    implies_true, List.Pairwise.nil, and_true]
  refine ⟨⟨?_, ?_, ?_, ?_, ?_, ?_⟩, ⟨?_, ?_, ?_, ?_, ?_⟩, ⟨?_, ?_, ?_, ?_⟩, ⟨?_, ?_, ?_⟩, ⟨?_, ?_⟩,
    ?_⟩
  all_goals exact disjoint_accepted (by decide)

/-- The twelve bytes of a ciphertext, one more than that and one less. -/
theorem every_record_delimited_ciphertext :
    let bytes := encode (⟨16, 13⟩ : Ciphertext)
    bytes.length = 12 ∧ bytes ∈ accepted Ciphertext ∧
      (∃ fault, (decode (bytes ++ [0]) : Except Error Ciphertext) = .error (.malformed fault)) ∧
      ∃ fault, (decode (bytes.take 11) : Except Error Ciphertext) = .error (.malformed fault) := by
  intro bytes
  have hfits : (⟨16, 13⟩ : Ciphertext).Fits := by decide +kernel
  have haccepted : bytes ∈ accepted Ciphertext :=
    ⟨_, decode_encode_of_reads (Decoder.reads_ciphertext hfits)⟩
  obtain ⟨⟨_, _, _, hdelimited, _⟩, _⟩ := every_record_delimited
  refine ⟨rfl, haccepted, ?_, ?_⟩
  · exact hdelimited bytes haccepted _ (by decide) (.inr (List.prefix_append bytes [0]))
  · exact hdelimited bytes haccepted _ (by decide) (.inl (List.take_prefix 11 bytes))

end Wire

end SecretBallot
