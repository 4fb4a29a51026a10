import Mathlib
import SecretBallot.Proofs.Ballot.Complete
import SecretBallot.Proofs.Ballot.Seal

namespace SecretBallot

section Decrypt

variable {key : DecryptionKey} {publicKey : PublicKey}

/-- Zero and one are found by a search up to one, as the generator is not one. -/
theorem Ciphertext.search_bit (group : Group) (selected : Bool) :
    search group (group.powG selected.toNat) 1 = .ok selected.toNat := by
  cases selected with
  | false =>
    rw [Bool.toNat_false, group.powG_zero, search, searchFrom, if_pos rfl]
  | true =>
    have hpower : group.mul 1 group.g = group.g := by
      rw [Group.mul, Nat.one_mul, Nat.mod_eq_of_lt group.g_lt_p]
    rw [Bool.toNat_true, group.powG_one, search, searchFrom, if_neg group.one_lt_g.ne, searchFrom,
      hpower, if_pos rfl]

variable (hfits : key.fits publicKey = true)

include hfits

/-- The key that fits takes the mask off. -/
theorem Ciphertext.decrypt_of_encrypt {m randomness : Nat} {ciphertext : Ciphertext}
    (hencrypt : encrypt publicKey m randomness = .ok ciphertext) (bound : Nat) :
    decrypt key ciphertext bound =
      (liftM (search key.group (key.group.powG m) bound) : Outcome Nat) := by
  have hformed : ciphertext.isWellFormed key.group = true :=
    DecryptionKey.group_of_fits hfits ▸ isWellFormed_of_encrypt hencrypt
  have hmask : key.group.isMember (key.group.powG (key.x * randomness)) = true :=
    key.group.isMember_powMod key.group.isMember_g _
  obtain rfl := eq_powG_of_encrypt hfits hencrypt
  rw [decrypt, ensure_of _ hformed, lift_ok, ok_bind, DecryptionKey.unmask, Group.pow_powG, ok_bind,
    Nat.mul_comm randomness, ← Group.mul_powG, key.group.div_mul hmask (key.group.powG_lt m),
    ok_bind]

theorem SealedRace.openWith_of_encrypts {race : SealedRace} {plain : PlainRace}
    (hencrypts : race.Encrypts publicKey plain) :
    race.openWith (fun _ _ ciphertext => ciphertext.decrypt key 1) = .ok plain := by
  obtain ⟨hname, hlimit, hentries⟩ := hencrypts
  have hvotes : race.votes.mapM (fun _ (vote : SealedVote) => do
      let plaintext ← vote.ciphertext.decrypt key 1
      pure (plaintext == 1)) = .ok plain.votes := by
    refine Dict.mapM_of_forall₂ (hentries.imp fun entry selection => ?_)
    rintro ⟨hkey, randomness, hencrypt⟩
    refine ⟨hkey, ?_⟩
    rw [Ciphertext.decrypt_of_encrypt hfits hencrypt, Ciphertext.search_bit]
    cases selection.2 <;> rfl
  rw [openWith, hvotes, hname, hlimit]
  rfl

/-- A ballot that encrypts another is decrypted to it by the key that fits. -/
theorem SealedBallot.decrypt_of_encrypts {ballot : SealedBallot} {plain : PlainBallot}
    (hencrypts : ballot.Encrypts publicKey plain) : ballot.decrypt key = .ok plain := by
  obtain ⟨hid, hraces⟩ := hencrypts
  have hopened : ballot.races.mapM (fun race => race.openWith fun _ _ ciphertext =>
      ciphertext.decrypt key 1) = .ok plain.races :=
    mapM_of_forall₂ (hraces.imp fun _ _ hrace => SealedRace.openWith_of_encrypts hfits hrace)
  rw [decrypt, openWith, hopened, hid]
  rfl

end Decrypt

section Opens

variable {key : PublicKey} {nonce : Bytes}

/-- A witness opens a ballot: it has as many openings as the ballot has votes, every vote is the
    encryption of its opening, and every opening is that of a vote. -/
structure Witness.Opens (witness : Witness) (key : PublicKey) (ballot : SealedBallot) : Prop where
  size_eq : witness.size = ballot.voteCount
  encrypts : ∀ race ∈ ballot.races, ∀ entry ∈ race.votes.entries, ∃ opening,
    witness.get? race.name entry.1 = some opening ∧
      Ciphertext.encrypt key opening.plaintext.toNat opening.randomness = .ok entry.2.ciphertext
  only : ∀ name candidate opening, witness.get? name candidate = some opening →
    ∃ race ∈ ballot.races, race.name = name ∧ candidate ∈ race.votes.keys

variable {id : String} {races : List (SealedRace × Dict String Opening)}

/-- No race with openings is followed by one of its name, whose openings the witness would have
    instead. -/
def KeepsOpenings (races : List (SealedRace × Dict String Opening)) : Prop :=
  Dict.KeepsWeight Dict.size (races.map fun pair => (pair.1.name, pair.2))

theorem Witness.get?_assemble (name candidate : String) :
    (assemble id nonce races).2.get? name candidate =
      ((Dict.ofList (races.map fun pair => (pair.1.name, pair.2))).get? name).bind
        fun openings => openings.get? candidate :=
  rfl

/-- What the witness of a ballot has are openings of the ballot's races. -/
theorem Witness.exists_of_get?_assemble {name candidate : String} {opening : Opening}
    (hopening : (assemble id nonce races).2.get? name candidate = some opening) :
    ∃ pair ∈ races, pair.1.name = name ∧ pair.2.get? candidate = some opening := by
  rw [get?_assemble, Option.bind_eq_some_iff] at hopening
  obtain ⟨openings, hopenings, hopening⟩ := hopening
  obtain ⟨pair, hpair, hsame⟩ := List.mem_map.1 (Dict.mem_of_get?_ofList hopenings)
  obtain ⟨rfl, rfl⟩ := Prod.mk.inj hsame
  exact ⟨pair, hpair, rfl, hopening⟩

/-- If none are replaced, the witness has the openings of each race. -/
theorem Witness.get?_assemble_of_keepsOpenings (hkeeps : KeepsOpenings races)
    {pair : SealedRace × Dict String Opening} (hpair : pair ∈ races) {candidate : String}
    {opening : Opening} (hopening : pair.2.get? candidate = some opening) :
    (assemble id nonce races).2.get? pair.1.name candidate = some opening := by
  have hsize : pair.2.size ≠ 0 :=
    (List.length_pos_of_mem (Dict.get?_eq_some_iff.1 hopening)).ne'
  have hfound : (Dict.ofList (races.map fun pair => (pair.1.name, pair.2))).get? pair.1.name =
      some pair.2 :=
    Dict.get?_ofList_of_keepsWeight hkeeps (List.mem_map_of_mem hpair) hsize
  rw [get?_assemble, hfound]
  exact hopening

section Opened

variable (hopened : ∀ pair ∈ races, AreOpened key pair.2 pair.1.votes)

include hopened

/-- A witness has no more openings than its ballot has votes, and as many exactly if none are
    replaced. -/
theorem Witness.size_assemble :
    (assemble id nonce races).2.size ≤ (assemble id nonce races).1.voteCount ∧
      ((assemble id nonce races).2.size = (assemble id nonce races).1.voteCount ↔
        KeepsOpenings races) := by
  have hsize : (assemble id nonce races).2.size = ((Dict.ofList
      (races.map fun pair => (pair.1.name, pair.2))).values.map Dict.size).sum :=
    List.length_flatMap
  have hcount : (assemble id nonce races).1.voteCount =
      ((races.map fun pair => (pair.1.name, pair.2)).map (·.2.size)).sum := by
    change ((races.map (·.1)).flatMap (·.votes.entries)).length = _
    rw [List.length_flatMap, List.map_map, List.map_map]
    refine congrArg List.sum (List.map_congr_left fun pair hpair => ?_)
    exact (hopened pair hpair).length_eq.symm
  rw [hsize, hcount]
  exact Dict.weight_ofList Dict.size _

/-- The witness opens its ballot exactly if no openings are replaced. -/
theorem Witness.opens_assemble_iff :
    (assemble id nonce races).2.Opens key (assemble id nonce races).1 ↔ KeepsOpenings races := by
  constructor
  · intro hopens
    exact (size_assemble hopened).2.1 hopens.size_eq
  · intro hkeeps
    refine ⟨(size_assemble hopened).2.2 hkeeps, ?_, ?_⟩
    · intro race hrace entry hentry
      obtain ⟨pair, hpair, rfl⟩ := List.mem_map.1 hrace
      obtain ⟨⟨candidate, opening⟩, hmem, hkey, hencrypts⟩ :=
        exists_of_mem_of_forall₂ (hopened pair hpair) hentry
      have hopening : pair.2.get? entry.1 = some opening :=
        hkey ▸ Dict.get?_eq_some_iff.2 hmem
      exact ⟨opening, get?_assemble_of_keepsOpenings hkeeps hpair hopening, hencrypts⟩
    · intro name candidate opening hopening
      obtain ⟨pair, hpair, hname, hcandidate⟩ := exists_of_get?_assemble hopening
      refine ⟨pair.1, List.mem_map_of_mem hpair, hname, ?_⟩
      rw [Dict.keys_eq_of_forall₂ (hopened pair hpair)]
      exact Dict.mem_keys_iff.2 ⟨opening, hcandidate⟩

end Opened

section Distinct

variable (hnames : (races.map (·.1.name)).Nodup)

include hnames

theorem keepsOpenings_of_nodup : KeepsOpenings races := by
  refine List.pairwise_map.2 ((List.pairwise_map.1 hnames).imp fun hne heq => ?_)
  exact absurd heq hne

theorem Witness.opens_assemble (hseals : ∀ pair ∈ races, pair.1.Seals key nonce pair.2) :
    (assemble id nonce races).2.Opens key (assemble id nonce races).1 :=
  (opens_assemble_iff fun pair hpair => (hseals pair hpair).areOpened).2
    (keepsOpenings_of_nodup hnames)

end Distinct

end Opens

namespace PlainBallot

variable {plain : PlainBallot} {key : PublicKey} {nonce supply : Bytes}

/-- A ballot that cannot be sealed is refused before anything is drawn. -/
theorem seal_eq_error (hfilled : ¬ plain.IsFilled) : ∃ reason,
    plain.seal key nonce supply = (.error (.refused (.invalidSelection reason)), supply) := by
  obtain ⟨reason, hcheck⟩ := check_eq_error hfilled
  refine ⟨reason, ?_⟩
  rw [PlainBallot.seal, Action.liftExcept_bind_apply, hcheck]

theorem isFilled_of_seal {sealed : SealedBallot × Witness} {rest : Bytes}
    (hseal : plain.seal key nonce supply = (.ok sealed, rest)) : plain.IsFilled := by
  by_contra hnot
  obtain ⟨reason, herror⟩ : ∃ reason, plain.seal key nonce supply =
      (.error (.refused (.invalidSelection reason)), supply) := seal_eq_error hnot
  rw [herror] at hseal
  cases hseal

section Races

variable {races : List (SealedRace × Dict String Opening)}
  (hraces : List.Forall₂ (fun plain pair => plain.SealsTo key nonce pair) plain.races races)

include hraces

theorem names_nodup_of_sealsTo (hfilled : plain.IsFilled) : (races.map (·.1.name)).Nodup := by
  rw [← map_eq_map_of_forall₂ hraces fun _ _ hpair => hpair.name_eq.symm]
  exact hfilled.names_nodup

theorem seals_of_sealsTo : ∀ pair ∈ races, pair.1.Seals key nonce pair.2 := by
  intro pair hpair
  obtain ⟨_, _, hpair⟩ := exists_of_mem_of_forall₂ hraces hpair
  exact hpair.seals

end Races

/-- What sealing returns verifies, and the witness opens the ballot. -/
theorem proves_of_seal {ballot : SealedBallot} {witness : Witness} {rest : Bytes}
    (hseal : plain.seal key nonce supply = (.ok (ballot, witness), rest)) :
    ballot.Proves key nonce plain ∧ witness.Opens key ballot := by
  have hfilled := isFilled_of_seal hseal
  obtain ⟨races, hraces, hsealed⟩ := (hfilled.completes_seal key nonce supply).of_ok hseal
  have hproves := proves_assemble hraces
  have hopens : (assemble plain.id nonce races).2.Opens key (assemble plain.id nonce races).1 :=
    Witness.opens_assemble (names_nodup_of_sealsTo hraces hfilled) (seals_of_sealsTo hraces)
  rw [← hsealed] at hproves hopens
  exact ⟨hproves, hopens⟩

/-- Encrypting a ballot succeeds, as long as random bytes are left, exactly if no race appears twice
    and each has as many selections as its limit asks for; any other ballot is refused with all
    random bytes left. The sealed ballot has the races of the plain one in their order, it verifies,
    the witness opens it, and the key that fits decrypts it to the plain one. -/
theorem sealed_iff_filled (plain : PlainBallot) (key : PublicKey) (nonce supply : Bytes)
    (hleft : (plain.seal key nonce supply).1 ≠ .error .exhausted) :
    ((∃ sealed rest, plain.seal key nonce supply = (.ok sealed, rest)) ↔ plain.IsFilled) ∧
    (¬ plain.IsFilled → ∃ reason,
      plain.seal key nonce supply = (.error (.refused (.invalidSelection reason)), supply)) ∧
    ∀ ballot witness rest, plain.seal key nonce supply = (.ok (ballot, witness), rest) →
      ballot.id = plain.id ∧ ballot.nonce = nonce ∧
      ballot.races.map (fun race => (race.name, race.limit, race.votes.keys)) =
        plain.races.map (fun race => (race.name, race.limit, race.votes.keys)) ∧
      ballot.verify key = .ok () ∧ witness.Opens key ballot ∧
      ∀ decryptionKey : DecryptionKey, decryptionKey.fits key = true →
        ballot.decrypt decryptionKey = .ok plain := by
  refine ⟨⟨?_, fun hfilled => ?_⟩, seal_eq_error, fun ballot witness rest hseal => ?_⟩
  · rintro ⟨_, _, hseal⟩
    exact isFilled_of_seal hseal
  · obtain ⟨sealed, rest, hseal, _⟩ := (hfilled.completes_seal key nonce supply).exists_ok hleft
    exact ⟨sealed, rest, hseal⟩
  · obtain ⟨hproves, hopens⟩ := proves_of_seal hseal
    have hraces : ballot.races.map (fun race => (race.name, race.limit, race.votes.keys)) =
        plain.races.map (fun race => (race.name, race.limit, race.votes.keys)) :=
      (map_eq_map_of_forall₂ hproves.races fun _ _ hrace => by
        rw [hrace.name_eq, hrace.limit_eq, hrace.keys_eq]).symm
    exact ⟨hproves.id_eq, hproves.nonce_eq, hraces, hproves.verify, hopens, fun _ hfits =>
      SealedBallot.decrypt_of_encrypts hfits (encrypts_of_seal hseal)⟩

/-- A vote in one race, and a race without candidates. -/
def small : PlainBallot :=
  ⟨"ballot", [⟨"mayor", 1, Dict.ofList [("ann", true)]⟩, ⟨"council", 0, ∅⟩]⟩

theorem small_isFilled : small.IsFilled :=
  ⟨by decide, by decide⟩

/-- In the smallest group, whose subgroup has order two. -/
theorem sealed_iff_filled_smallest :
    (small.seal .smallest [7] [0, 1, 1, 0, 1, 0]).1 ≠ .error .exhausted ∧
      DecryptionKey.fits ⟨.smallest, 1⟩ .smallest = true ∧
      ∃ ballot witness rest,
        small.seal .smallest [7] [0, 1, 1, 0, 1, 0] = (.ok (ballot, witness), rest) ∧
        ballot.verify .smallest = .ok () ∧ witness.Opens .smallest ballot ∧
        ballot.decrypt ⟨.smallest, 1⟩ = .ok small := by
  have hleft : (small.seal .smallest [7] [0, 1, 1, 0, 1, 0]).1 ≠ .error .exhausted := by
    decide +kernel
  have hfits : DecryptionKey.fits ⟨.smallest, 1⟩ .smallest = true := by decide
  obtain ⟨hiff, _, hspec⟩ := sealed_iff_filled small .smallest [7] [0, 1, 1, 0, 1, 0] hleft
  obtain ⟨⟨ballot, witness⟩, rest, hseal⟩ := hiff.2 small_isFilled
  obtain ⟨_, _, _, hverify, hopens, hdecrypt⟩ := hspec ballot witness rest hseal
  exact ⟨hleft, hfits, ballot, witness, rest, hseal, hverify, hopens, hdecrypt _ hfits⟩

end PlainBallot

end SecretBallot
