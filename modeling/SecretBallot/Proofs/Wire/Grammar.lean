import Mathlib
import SecretBallot.Proofs.Wire.Format

namespace SecretBallot

namespace Wire

namespace Format

def ciphertextFields : Format Ciphertext := fun bytes ciphertext =>
  ∃ pad data, number pad ciphertext.pad ∧ number data ciphertext.data ∧ bytes = pad ++ data

/-- The challenges, behind their number, and as many responses. -/
def membershipProofFields : Format MembershipProof := fun bytes proof =>
  ∃ challengeCount challenges responses, count challengeCount proof.challenges.length ∧
    Sequence number challenges proof.challenges ∧ Sequence number responses proof.responses ∧
    proof.responses.length = proof.challenges.length ∧
    bytes = challengeCount ++ (challenges ++ responses)

def sumProofFields : Format SumProof := fun bytes proof =>
  ∃ challenge response, number challenge proof.challenge ∧ number response proof.response ∧
    bytes = challenge ++ response

/-- A candidate and the vote for it. -/
def vote : Format (String × SealedVote) := fun bytes entry =>
  ∃ candidate ciphertext proof, text candidate entry.1 ∧
    nested (record 0x10 ciphertextFields) ciphertext entry.2.ciphertext ∧
    nested (record 0x11 membershipProofFields) proof entry.2.proof ∧
    bytes = candidate ++ (ciphertext ++ proof)

/-- Votes for distinct candidates in any order. -/
def votes : Format (List (String × SealedVote)) := fun bytes entries =>
  Sequence vote bytes entries ∧ (entries.map (·.1)).Nodup

/-- A number of votes, stored behind those found before, for candidates that were not. -/
def votesAfter (n : Nat) (found : Dict String SealedVote) : Format (Dict String SealedVote) :=
  fun bytes result => ∃ entries : List (String × SealedVote), entries.length = n ∧
    votes bytes entries ∧ (∀ candidate ∈ entries.map (·.1), found.get? candidate = none) ∧
    result = entries.foldl (fun found entry => found.insert entry.1 entry.2) found

/-- The votes of a race are found by their candidates, whatever the order they are listed in. -/
def race : Format SealedRace := fun bytes value =>
  ∃ name limit voteCount listed sumProof, ∃ entries : List (String × SealedVote),
    text name value.name ∧ word limit value.limit ∧ count voteCount entries.length ∧
    votes listed entries ∧ value.votes = Dict.ofList entries ∧
    nested (record 0x12 sumProofFields) sumProof value.sumProof ∧
    bytes = name ++ (limit ++ (voteCount ++ (listed ++ sumProof)))

def ballotFields : Format SealedBallot := fun bytes ballot =>
  ∃ id nonce raceCount races, text id ballot.id ∧ field nonce ballot.nonce ∧
    count raceCount ballot.races.length ∧ Sequence race races ballot.races ∧
    bytes = id ++ (nonce ++ (raceCount ++ races))

/-- A whole ballot. -/
def ballot : Format SealedBallot :=
  record 0x20 ballotFields

theorem four_le_length_of_vote {bytes : Bytes} {entry : String × SealedVote}
    (hvote : vote bytes entry) : 4 ≤ bytes.length := by
  obtain ⟨candidate, ciphertext, proof, hcandidate, -, -, rfl⟩ := hvote
  rw [List.length_append]
  exact (four_le_length_of_field hcandidate).trans (Nat.le_add_right _ _)

theorem four_le_length_of_race {bytes : Bytes} {value : SealedRace} (hrace : race bytes value) :
    4 ≤ bytes.length := by
  obtain ⟨name, _, _, _, _, _, hname, -, -, -, -, -, rfl⟩ := hrace
  rw [List.length_append]
  exact (four_le_length_of_field hname).trans (Nat.le_add_right _ _)

theorem four_le_length_of_number {bytes : Bytes} {n : Nat} (hnumber : number bytes n) :
    4 ≤ bytes.length := by
  obtain ⟨digits, hdigits, -⟩ := hnumber
  exact four_le_length_of_field hdigits

end Format

namespace Decoder

theorem parses_ciphertext : (Record.read : Decoder Ciphertext).Parses Format.ciphertextFields := by
  refine (parses_nat.bind fun pad => parses_nat.bind_pure (Ciphertext.mk pad)).congr ?_
  intro bytes ciphertext
  constructor
  · rintro ⟨pad, data, _, hpad, ⟨_, hdata, rfl⟩, hbytes⟩
    exact ⟨pad, data, hpad, hdata, hbytes⟩
  · rintro ⟨pad, data, hpad, hdata, hbytes⟩
    exact ⟨pad, data, _, hpad, ⟨_, hdata, rfl⟩, hbytes⟩

theorem parses_sumProof : (Record.read : Decoder SumProof).Parses Format.sumProofFields := by
  refine (parses_nat.bind fun challenge =>
    parses_nat.bind_pure (SumProof.mk challenge)).congr ?_
  intro bytes proof
  constructor
  · rintro ⟨challenge, response, _, hchallenge, ⟨_, hresponse, rfl⟩, hbytes⟩
    exact ⟨challenge, response, hchallenge, hresponse, hbytes⟩
  · rintro ⟨challenge, response, hchallenge, hresponse, hbytes⟩
    exact ⟨challenge, response, _, hchallenge, ⟨_, hresponse, rfl⟩, hbytes⟩

theorem parses_membershipProof :
    (Record.read : Decoder MembershipProof).Parses Format.membershipProofFields := by
  refine (parses_count_bind (fun n => (parses_nat.repeated n).bind fun challenges =>
    (parses_nat.repeated n).bind_pure (MembershipProof.mk challenges)) ?_).congr ?_
  · rintro n _ proof ⟨challenges, responses, _, ⟨rfl, hchallenges⟩, _, rfl⟩
    rw [List.length_append]
    exact (hchallenges.four_mul_length_le Format.four_le_length_of_number).trans
      (Nat.le_add_right _ _)
  · intro bytes proof
    constructor
    · rintro ⟨front, _, _, hcount, ⟨challenges, responses, _, ⟨rfl, hchallenges⟩,
        ⟨_, ⟨hpaired, hresponses⟩, rfl⟩, rfl⟩, hbytes⟩
      exact ⟨front, challenges, responses, hcount, hchallenges, hresponses, hpaired, hbytes⟩
    · rintro ⟨front, challenges, responses, hcount, hchallenges, hresponses, hpaired, hbytes⟩
      exact ⟨front, _, _, hcount, ⟨challenges, responses, _, ⟨rfl, hchallenges⟩,
        ⟨_, ⟨hpaired, hresponses⟩, rfl⟩, rfl⟩, hbytes⟩

theorem parses_vote : vote.Parses Format.vote := by
  refine (parses_text.bind fun candidate => (parses_nested parses_ciphertext).bind fun ciphertext =>
    (parses_nested parses_membershipProof).bind_pure fun proof =>
      (candidate, SealedVote.mk ciphertext proof)).congr ?_
  intro bytes entry
  constructor
  · rintro ⟨candidate, _, _, hcandidate, ⟨ciphertext, proof, _, hciphertext, ⟨_, hproof, rfl⟩,
      rfl⟩, hbytes⟩
    exact ⟨candidate, ciphertext, proof, hcandidate, hciphertext, hproof, hbytes⟩
  · rintro ⟨candidate, ciphertext, proof, hcandidate, hciphertext, hproof, hbytes⟩
    exact ⟨candidate, _, _, hcandidate, ⟨ciphertext, proof, _, hciphertext, ⟨_, hproof, rfl⟩,
      rfl⟩, hbytes⟩

/-- A candidate who was found before is turned down, and so is one who is listed twice. -/
theorem parses_votes (race : String) (n : Nat) (found : Dict String SealedVote) :
    (votes race n found).Parses (Format.votesAfter n found) := by
  induction n generalizing found with
  | zero =>
    refine (parses_pure found).congr fun bytes result => ?_
    constructor
    · rintro ⟨rfl, rfl⟩
      exact ⟨[], rfl, ⟨.nil, .nil⟩, by simp, rfl⟩
    · rintro ⟨entries, hlength, ⟨hall, -⟩, -, rfl⟩
      cases hall with
      | nil => exact ⟨rfl, rfl⟩
      | cons => cases hlength
  | succ n ih =>
    have hnext (entry : String × SealedVote) :
        (if found.contains entry.1 then throw (.malformed (.candidateTwice race))
          else votes race n (found.insert entry.1 entry.2)).Parses fun bytes result =>
        ¬ found.contains entry.1 = true ∧
          Format.votesAfter n (found.insert entry.1 entry.2) bytes result := by
      rw [← ite_not]
      exact (ih (found.insert entry.1 entry.2)).guarded _
    refine (parses_vote.bind hnext).congr fun bytes result => ?_
    constructor
    · rintro ⟨front, back, entry, hvote, ⟨hfree, rest, rfl, ⟨hall, hkeys⟩, hlater, rfl⟩, rfl⟩
      obtain ⟨hnodup, hnew⟩ := (Dict.vacant_cons_iff entry.2).2
        ⟨Dict.not_contains_iff.1 hfree, hkeys, hlater⟩
      exact ⟨entry :: rest, rfl, ⟨.cons hvote hall, hnodup⟩, hnew, rfl⟩
    · rintro ⟨entries, hlength, ⟨hall, hkeys⟩, hnew, rfl⟩
      cases hall with
      | nil => cases hlength
      | @cons front back entry rest hvote hall =>
        obtain ⟨hfree, hkeys, hlater⟩ := (Dict.vacant_cons_iff entry.2).1 ⟨hkeys, hnew⟩
        exact ⟨front, back, entry, hvote, ⟨Dict.not_contains_iff.2 hfree, rest,
          Nat.succ.inj hlength, ⟨hall, hkeys⟩, hlater, rfl⟩, rfl⟩

theorem parses_race : race.Parses Format.race := by
  refine (parses_text.bind fun name => parses_word.bind fun limit => parses_count_bind
    (fun n => (parses_votes name n ∅).bind fun votes =>
      (parses_nested parses_sumProof).bind_pure (SealedRace.mk name limit votes)) ?_).congr ?_
  · rintro n _ race ⟨listed, sumProof, _, ⟨entries, rfl, ⟨hall, -⟩, -, -⟩, -, rfl⟩
    rw [List.length_append]
    exact (hall.four_mul_length_le Format.four_le_length_of_vote).trans (Nat.le_add_right _ _)
  · intro bytes race
    constructor
    · rintro ⟨name, _, _, hname, ⟨limit, _, _, hlimit, ⟨voteCount, _, _, hcount, ⟨listed, sumProof,
        _, ⟨entries, rfl, hvotes, -, rfl⟩, ⟨_, hsum, rfl⟩, rfl⟩, rfl⟩, rfl⟩, hbytes⟩
      exact ⟨name, limit, voteCount, listed, sumProof, entries, hname, hlimit, hcount, hvotes, rfl,
        hsum, hbytes⟩
    · rintro ⟨name, limit, voteCount, listed, sumProof, entries, hname, hlimit, hcount, hvotes,
        hrace, hsum, hbytes⟩
      exact ⟨name, _, _, hname, ⟨limit, _, _, hlimit, ⟨voteCount, _, _, hcount, ⟨listed, sumProof,
        _, ⟨entries, rfl, hvotes, fun _ _ => Dict.get?_empty _, hrace⟩, ⟨_, hsum, rfl⟩, rfl⟩, rfl⟩,
        rfl⟩, hbytes⟩

theorem parses_ballot : (Record.read : Decoder SealedBallot).Parses Format.ballotFields := by
  refine (parses_text.bind fun id => parses_field.bind fun nonce => parses_count_bind
    (fun n => (parses_race.repeated n).bind_pure (SealedBallot.mk id nonce)) ?_).congr ?_
  · rintro n bytes _ ⟨races, ⟨rfl, hraces⟩, -⟩
    exact hraces.four_mul_length_le Format.four_le_length_of_race
  · intro bytes ballot
    constructor
    · rintro ⟨id, _, _, hid, ⟨nonce, _, _, hnonce, ⟨front, races, _, hcount,
        ⟨_, ⟨rfl, hraces⟩, rfl⟩, rfl⟩, rfl⟩, hbytes⟩
      exact ⟨id, nonce, front, races, hid, hnonce, hcount, hraces, hbytes⟩
    · rintro ⟨id, nonce, front, races, hid, hnonce, hcount, hraces, hbytes⟩
      exact ⟨id, _, _, hid, ⟨nonce, _, _, hnonce, ⟨front, races, _, hcount,
        ⟨_, ⟨rfl, hraces⟩, rfl⟩, rfl⟩, rfl⟩, hbytes⟩

end Decoder

/-- A ballot is decoded from the strings of the grammar that stand for it. Every other string is
    malformed. -/
theorem decode_ballot_exact (bytes : Bytes) :
    (∀ ballot, decode bytes = .ok ballot ↔ Format.ballot bytes ballot) ∧
      ((∃ ballot, Format.ballot bytes ballot) ∨
        ∃ fault, (decode bytes : Except Error SealedBallot) = .error (.malformed fault)) := by
  have hiff (ballot : SealedBallot) : decode bytes = .ok ballot ↔ Format.ballot bytes ballot :=
    decode_eq_ok_iff Decoder.parses_ballot
  refine ⟨hiff, ?_⟩
  cases hdecode : (decode bytes : Except Error SealedBallot) with
  | ok ballot => exact .inl ⟨ballot, (hiff ballot).1 hdecode⟩
  | error error =>
    obtain ⟨fault, rfl⟩ := decode_malformed Decoder.parses_ballot hdecode
    exact .inr ⟨fault, rfl⟩

end Wire

end SecretBallot
