import Mathlib
import SecretBallot.Ballot.Open
import SecretBallot.Proofs.Ciphertext
import SecretBallot.Proofs.Dict

namespace SecretBallot

/-- A proof verifies only if it is admissible, which includes that the ciphertext is well-formed. -/
theorem MembershipProof.isWellFormed_of_verify {hash : Hash} {key : PublicKey}
    {ciphertext : Ciphertext} {proof : MembershipProof} {context : Bytes} {valid : Bool}
    (hverify : Transcript.onFresh (MembershipProof.verify hash key ciphertext proof context) =
      .ok valid) (hvalid : valid = true) : ciphertext.isWellFormed key.group = true := by
  subst hvalid
  rw [Transcript.onFresh, MembershipProof.verify, MembershipProof.verifyInDomain] at hverify
  by_cases hadmissible : proof.isAdmissible key.group ciphertext voteDomain = true
  · rw [isAdmissible, Bool.and_eq_true] at hadmissible
    exact hadmissible.2
  · rw [if_neg hadmissible, Action.pure_apply] at hverify
    cases hverify

namespace SealedRace

/-- Every vote opens to zero or one. -/
def OpensToBits (race : SealedRace) (key : DecryptionKey) : Prop :=
  ∀ entry ∈ race.votes.entries, key.plaintext entry.2.ciphertext ≤ 1

instance (key : DecryptionKey) : DecidablePred (OpensToBits · key) :=
  fun race => inferInstanceAs (Decidable (∀ entry ∈ race.votes.entries, _))

/-- What the votes of a race open to. -/
def opened (race : SealedRace) (key : DecryptionKey) : PlainRace :=
  ⟨race.name, race.limit, race.votes.map fun _ vote => key.plaintext vote.ciphertext == 1⟩

theorem openWith_decrypt_eq {race : SealedRace} {key : DecryptionKey} (hsafe : key.group.IsSafe)
    (hformed : ∀ entry ∈ race.votes.entries,
      entry.2.ciphertext.isWellFormed key.group = true) :
    race.openWith (fun _ _ ciphertext => ciphertext.decrypt key 1) =
      if race.OpensToBits key then .ok (race.opened key)
      else .error (.refused (.searchExhausted 1)) := by
  have hvotes : race.votes.mapM (fun _ (vote : SealedVote) => do
      let plaintext ← vote.ciphertext.decrypt key 1
      pure (plaintext == 1)) =
      if ∀ entry ∈ race.votes.entries, key.plaintext entry.2.ciphertext ≤ 1 then
        .ok (race.votes.map fun _ vote => key.plaintext vote.ciphertext == 1)
      else .error (.refused (.searchExhausted 1)) := by
    refine Dict.mapM_eq_ite (fun _ (vote : SealedVote) => key.plaintext vote.ciphertext ≤ 1) ?_
    intro candidate vote hvote
    rw [Ciphertext.decrypt_eq hsafe (hformed _ (Dict.get?_eq_some_iff.1 hvote))]
    split <;> rfl
  rw [openWith, hvotes]
  by_cases hbits : ∀ entry ∈ race.votes.entries, key.plaintext entry.2.ciphertext ≤ 1
  · have hopens : race.OpensToBits key := hbits
    rw [if_pos hbits, if_pos hopens]
    rfl
  · have hopens : ¬ race.OpensToBits key := hbits
    rw [if_neg hbits, if_neg hopens]
    rfl

end SealedRace

namespace SealedBallot

/-- Every vote is a pair of members of the subgroup. -/
def WellFormed (ballot : SealedBallot) (group : Group) : Prop :=
  ∀ race ∈ ballot.races, ∀ entry ∈ race.votes.entries,
    entry.2.ciphertext.isWellFormed group = true

/-- Every vote of every race opens to zero or one. -/
def OpensToBits (ballot : SealedBallot) (key : DecryptionKey) : Prop :=
  ∀ race ∈ ballot.races, race.OpensToBits key

instance (key : DecryptionKey) : DecidablePred (OpensToBits · key) :=
  fun ballot => inferInstanceAs (Decidable (∀ race ∈ ballot.races, _))

/-- What a ballot opens to. -/
def opened (ballot : SealedBallot) (key : DecryptionKey) : PlainBallot :=
  ⟨ballot.id, ballot.races.map (·.opened key)⟩

theorem wellFormed_of_verify {ballot : SealedBallot} {key : PublicKey}
    (hverify : ballot.verify key = .ok ()) : ballot.WellFormed key.group := by
  intro race hrace entry hentry
  obtain ⟨_, hvotes, _⟩ := bind_eq_ok_iff.1 hverify
  have hrace : race.verifyVotes key ballot.nonce = .ok () := forM_eq_ok_iff.1 hvotes race hrace
  obtain ⟨valid, hproof, hvalid⟩ := bind_eq_ok_iff.1 (forM_eq_ok_iff.1 hrace entry hentry)
  rw [lift_eq_ok_iff, ensure_eq_ok_iff] at hvalid
  exact MembershipProof.isWellFormed_of_verify hproof hvalid

/-- Opening succeeds exactly if every vote opens to zero or one, and gives these. -/
theorem openWith_decrypt_eq {ballot : SealedBallot} {key : DecryptionKey}
    (hsafe : key.group.IsSafe) (hformed : ballot.WellFormed key.group) :
    ballot.openWith (fun _ _ ciphertext => ciphertext.decrypt key 1) =
      if ballot.OpensToBits key then .ok (ballot.opened key)
      else .error (.refused (.searchExhausted 1)) := by
  have hraces : ballot.races.mapM
      (fun race => race.openWith fun _ _ ciphertext => ciphertext.decrypt key 1) =
      if ∀ race ∈ ballot.races, race.OpensToBits key then .ok (ballot.races.map (·.opened key))
      else .error (.refused (.searchExhausted 1)) :=
    mapM_eq_ite (SealedRace.OpensToBits · key)
      fun race hrace => SealedRace.openWith_decrypt_eq hsafe (hformed race hrace)
  rw [openWith, hraces]
  by_cases hbits : ∀ race ∈ ballot.races, race.OpensToBits key
  · have hopens : ballot.OpensToBits key := hbits
    rw [if_pos hbits, if_pos hopens]
    rfl
  · have hopens : ¬ ballot.OpensToBits key := hbits
    rw [if_neg hbits, if_neg hopens]
    rfl

end SealedBallot

end SecretBallot
