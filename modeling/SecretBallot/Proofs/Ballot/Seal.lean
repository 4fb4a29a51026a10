import Mathlib
import SecretBallot.Ballot.Seal
import SecretBallot.Proofs.Ballot.Open

namespace SecretBallot

/-- A vote is an encryption of whether its candidate is selected. -/
def SealedVote.Encrypts (vote : SealedVote) (key : PublicKey) (selected : Bool) : Prop :=
  ∃ randomness, Ciphertext.encrypt key selected.toNat randomness = .ok vote.ciphertext

/-- A race has the candidates of another, with every selection encrypted. -/
def SealedRace.Encrypts (race : SealedRace) (key : PublicKey) (plain : PlainRace) : Prop :=
  race.name = plain.name ∧ race.limit = plain.limit ∧
    List.Forall₂ (fun entry selection => entry.1 = selection.1 ∧ entry.2.Encrypts key selection.2)
      race.votes.entries plain.votes.entries

/-- A ballot has the races of another, each encrypted. -/
def SealedBallot.Encrypts (ballot : SealedBallot) (key : PublicKey) (plain : PlainBallot) : Prop :=
  ballot.id = plain.id ∧
    List.Forall₂ (fun race plain => race.Encrypts key plain) ballot.races plain.races

section Seal

variable {key : PublicKey} {nonce : Bytes}

theorem Opening.toNat_plaintext (opening : Opening) :
    opening.plaintext.toNat = opening.selected.toNat := by
  rw [plaintext]
  cases opening.selected <;> rfl

theorem Opening.encrypt_of_seal {opening : Opening} {race candidate : String} {vote : SealedVote}
    {prover reached : Prover}
    (hseal : opening.seal key nonce race candidate prover = (.ok vote, reached)) :
    Ciphertext.encrypt key opening.plaintext.toNat opening.randomness = .ok vote.ciphertext := by
  rw [Opening.seal] at hseal
  obtain ⟨ciphertext, _, hencrypt, hseal⟩ := Action.bind_eq_ok_iff.1 hseal
  obtain ⟨hencrypt, _⟩ := Action.lift_apply_eq_ok_iff.1 hencrypt
  obtain ⟨proof, _, _, hpure⟩ := Action.bind_eq_ok_iff.1 hseal
  rw [Action.pure_eq_ok_iff] at hpure
  obtain ⟨rfl, _⟩ := hpure
  exact hencrypt

theorem Opening.encrypts_of_seal {opening : Opening} {race candidate : String} {vote : SealedVote}
    {prover reached : Prover}
    (hseal : opening.seal key nonce race candidate prover = (.ok vote, reached)) :
    vote.Encrypts key opening.selected :=
  ⟨opening.randomness, opening.toNat_plaintext ▸ Opening.encrypt_of_seal hseal⟩

theorem PlainRace.encrypts_of_seal {plain : PlainRace} {race : SealedRace}
    {openings : Dict String Opening} {prover reached : Prover}
    (hseal : plain.seal key nonce prover = (.ok (race, openings), reached)) :
    race.Encrypts key plain := by
  rw [PlainRace.seal] at hseal
  obtain ⟨drawn, _, hdrawn, hseal⟩ := Action.bind_eq_ok_iff.1 hseal
  obtain ⟨sealed, _, hsealed, hpure⟩ := Action.bind_eq_ok_iff.1 hseal
  rw [Action.pure_eq_ok_iff, Prod.mk.injEq] at hpure
  obtain ⟨⟨rfl, rfl⟩, _⟩ := hpure
  rw [sealRace] at hsealed
  obtain ⟨votes, _, hvotes, hsealed⟩ := Action.bind_eq_ok_iff.1 hsealed
  obtain ⟨sumProof, _, _, hpure⟩ := Action.bind_eq_ok_iff.1 hsealed
  rw [Action.pure_eq_ok_iff] at hpure
  obtain ⟨rfl, _⟩ := hpure
  refine ⟨rfl, rfl, ?_⟩
  have hselected : List.Forall₂ (fun (selection : String × Bool) (entry : String × Opening) =>
      selection.1 = entry.1 ∧ entry.2.selected = selection.2)
      plain.votes.entries drawn.entries := by
    refine (Dict.mapM_eq_ok hdrawn).imp fun selection entry => ?_
    rintro ⟨hkey, _, _, hdraw⟩
    obtain ⟨randomness, _, _, hpure⟩ := Action.bind_eq_ok_iff.1 hdraw
    rw [Action.pure_eq_ok_iff] at hpure
    exact ⟨hkey, hpure.1 ▸ rfl⟩
  have hencrypted : List.Forall₂ (fun (entry : String × Opening) (vote : String × SealedVote) =>
      entry.1 = vote.1 ∧ vote.2.Encrypts key entry.2.selected) drawn.entries votes.entries := by
    refine (Dict.mapM_eq_ok hvotes).imp fun entry vote => ?_
    rintro ⟨hkey, _, _, hvote⟩
    exact ⟨hkey, Opening.encrypts_of_seal hvote⟩
  refine (forall₂_comp ?_ hselected hencrypted).flip
  rintro selection entry vote ⟨hkey, hselection⟩ ⟨hsame, hvote⟩
  exact ⟨hsame.symm.trans hkey.symm, hselection ▸ hvote⟩

/-- A sealed ballot encrypts the ballot it was made from. -/
theorem PlainBallot.encrypts_of_seal {plain : PlainBallot} {ballot : SealedBallot}
    {witness : Witness} {supply rest : Bytes}
    (hseal : plain.seal key nonce supply = (.ok (ballot, witness), rest)) :
    ballot.Encrypts key plain := by
  rw [PlainBallot.seal] at hseal
  obtain ⟨_, _, _, hseal⟩ := Action.bind_eq_ok_iff.1 hseal
  obtain ⟨races, _, hraces, hpure⟩ := Action.bind_eq_ok_iff.1 hseal
  rw [Action.pure_eq_ok_iff, assemble, Prod.mk.injEq] at hpure
  obtain ⟨⟨rfl, _⟩, _⟩ := hpure
  refine ⟨rfl, ?_⟩
  obtain ⟨_, hmapped, _⟩ := Action.zoom_eq_ok_iff.1 hraces
  have hpairs : List.Forall₂ (fun (plain : PlainRace) (pair : SealedRace × Dict String Opening) =>
      pair.1.Encrypts key plain) plain.races races := by
    refine (Action.mapM_eq_ok hmapped).imp fun plain pair => ?_
    rintro ⟨_, _, hrace⟩
    exact PlainRace.encrypts_of_seal hrace
  exact List.forall₂_map_left_iff.2 hpairs.flip

end Seal

/-- To the key that fits, what was encrypted is a pair of powers of the generator. -/
theorem Ciphertext.eq_powG_of_encrypt {key : DecryptionKey} {publicKey : PublicKey}
    (hfits : key.fits publicKey = true) {m randomness : Nat} {ciphertext : Ciphertext}
    (hencrypt : encrypt publicKey m randomness = .ok ciphertext) :
    ciphertext = ⟨key.group.powG randomness, key.group.powG (key.x * randomness + m)⟩ := by
  rw [DecryptionKey.fits, Bool.and_eq_true, beq_iff_eq, beq_iff_eq] at hfits
  obtain ⟨hgroup, hkey⟩ := hfits
  have hpower : publicKey.group.pow publicKey.h randomness =
      .ok (key.group.powG (key.x * randomness)) := by
    rw [← hgroup, ← hkey, Group.pow_powG]
  rw [encrypt, hpower] at hencrypt
  have hvalue := (Except.ok.inj hencrypt).symm
  rwa [← hgroup, Group.mul_powG] at hvalue

section Open

variable {key : DecryptionKey} {publicKey : PublicKey} (hsafe : key.group.IsSafe)
  (hfits : key.fits publicKey = true)

include hsafe hfits

/-- The key that fits finds what was encrypted. -/
theorem Ciphertext.plaintext_of_encrypt {m randomness : Nat} {ciphertext : Ciphertext}
    (hm : m < key.group.q) (hencrypt : encrypt publicKey m randomness = .ok ciphertext) :
    key.plaintext ciphertext = m := by
  have hcombined := eq_powG_of_encrypt hfits hencrypt
  have hformed : ciphertext.isWellFormed key.group = true := by
    rw [hcombined, isWellFormed, Bool.and_eq_true]
    exact ⟨Group.isMember_powG hsafe _, Group.isMember_powG hsafe _⟩
  refine DecryptionKey.plaintext_eq hsafe hformed ?_
  rw [hcombined, DecryptionKey.opens_powG_iff hsafe]
  refine ⟨hm, ?_⟩
  rw [Nat.cast_add, Nat.cast_mul]
  ring

theorem SealedVote.plaintext_eq {vote : SealedVote} {selected : Bool}
    (hencrypts : vote.Encrypts publicKey selected) :
    key.plaintext vote.ciphertext = selected.toNat := by
  obtain ⟨randomness, hencrypt⟩ := hencrypts
  have hlt : selected.toNat < key.group.q :=
    (Bool.toNat_le selected).trans_lt key.group.one_lt_q
  exact Ciphertext.plaintext_of_encrypt hsafe hfits hlt hencrypt

theorem SealedRace.opened_eq {race : SealedRace} {plain : PlainRace}
    (hencrypts : race.Encrypts publicKey plain) :
    race.OpensToBits key ∧ race.opened key = plain := by
  obtain ⟨hname, hlimit, hvotes⟩ := hencrypts
  have hentries : (∀ entry ∈ race.votes.entries, key.plaintext entry.2.ciphertext ≤ 1) ∧
      race.votes.entries.map (fun entry => (entry.1, key.plaintext entry.2.ciphertext == 1)) =
        plain.votes.entries := by
    generalize race.votes.entries = entries at hvotes ⊢
    generalize plain.votes.entries = selections at hvotes ⊢
    induction hvotes with
    | nil => exact ⟨by simp, rfl⟩
    | @cons entry selection _ _ hhead _ ih =>
      obtain ⟨hkey, hvote⟩ := hhead
      have hplaintext := SealedVote.plaintext_eq hsafe hfits hvote
      refine ⟨List.forall_mem_cons.2 ⟨?_, ih.1⟩, ?_⟩
      · rw [hplaintext]
        exact Bool.toNat_le selection.2
      · rw [List.map_cons, ih.2, hplaintext, hkey]
        cases selection with
        | mk candidate selected => cases selected <;> rfl
  refine ⟨hentries.1, ?_⟩
  have hvotes : race.votes.map (fun _ vote => key.plaintext vote.ciphertext == 1) = plain.votes :=
    Dict.ext hentries.2
  rw [opened, hname, hlimit, hvotes]

/-- A ballot that encrypts another opens to it. -/
theorem SealedBallot.opened_eq {ballot : SealedBallot} {plain : PlainBallot}
    (hencrypts : ballot.Encrypts publicKey plain) :
    ballot.OpensToBits key ∧ ballot.opened key = plain := by
  obtain ⟨hid, hraces⟩ := hencrypts
  have hall : (∀ race ∈ ballot.races, race.OpensToBits key) ∧
      ballot.races.map (·.opened key) = plain.races := by
    generalize ballot.races = races at hraces ⊢
    generalize plain.races = plainRaces at hraces ⊢
    induction hraces with
    | nil => exact ⟨by simp, rfl⟩
    | cons hhead _ ih =>
      obtain ⟨hbits, hopened⟩ := SealedRace.opened_eq hsafe hfits hhead
      exact ⟨List.forall_mem_cons.2 ⟨hbits, ih.1⟩, by rw [List.map_cons, hopened, ih.2]⟩
  exact ⟨hall.1, by rw [opened, hid, hall.2]⟩

end Open

end SecretBallot
