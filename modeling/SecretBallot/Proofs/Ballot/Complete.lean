import Mathlib
import SecretBallot.Ballot.Seal
import SecretBallot.Proofs.Election
import SecretBallot.Proofs.Proof.Membership
import SecretBallot.Proofs.Proof.Sum
import SecretBallot.Proofs.Wire.RoundTrip

namespace SecretBallot

/-- A ballot can be sealed: no race appears twice, and each has as many selections as its limit
    asks for. -/
structure PlainBallot.IsFilled (ballot : PlainBallot) : Prop where
  names_nodup : (ballot.races.map (·.name)).Nodup
  selected_eq : ∀ race ∈ ballot.races, race.selected = race.limit.toNat

/-- A race is filled in as defined: its limit, its candidates, and as many selections as the limit
    asks for. -/
structure PlainRace.FillsIn (race : PlainRace) (definition : Race) : Prop where
  limit_eq : race.limit = definition.limit
  keys_eq : race.votes.keys = definition.candidates.keys
  selected_eq : race.selected = definition.limit.toNat

/-- A ballot has the races of an election in any order, each filled in as defined. -/
structure PlainBallot.FillsIn (ballot : PlainBallot) (election : Election) : Prop where
  names_perm : (ballot.races.map (·.name)).Perm election.races.keys
  races : ∀ race ∈ ballot.races, ∃ definition,
    election.races.get? race.name = some definition ∧ race.FillsIn definition

/-- A sealed race belongs to a plain one and its proofs verify. -/
structure SealedRace.Proves (race : SealedRace) (key : PublicKey) (nonce : Bytes)
    (plain : PlainRace) : Prop where
  name_eq : race.name = plain.name
  limit_eq : race.limit = plain.limit
  keys_eq : race.votes.keys = plain.votes.keys
  paired : race.IsPaired
  votes : race.verifyVotes key nonce = .ok ()
  sum : race.verifySum key nonce = .ok ()

/-- A sealed ballot belongs to a plain one and its proofs verify. -/
structure SealedBallot.Proves (ballot : SealedBallot) (key : PublicKey) (nonce : Bytes)
    (plain : PlainBallot) : Prop where
  id_eq : ballot.id = plain.id
  nonce_eq : ballot.nonce = nonce
  races : List.Forall₂ (fun plain race => race.Proves key nonce plain) plain.races ballot.races

namespace PlainBallot

theorem checkRace_eq_ok_iff {seen result : List String} {race : PlainRace} :
    checkRace seen race = .ok result ↔
      (race.name ∉ seen ∧ race.selected = race.limit.toNat) ∧ result = race.name :: seen := by
  simp only [checkRace, bind_eq_ok_iff, ensure_eq_ok_iff, pure, Except.pure, Except.ok.injEq]
  constructor
  · rintro ⟨_, hnew, _, hselected, rfl⟩
    exact ⟨⟨hnew, hselected⟩, rfl⟩
  · rintro ⟨⟨hnew, hselected⟩, rfl⟩
    exact ⟨(), hnew, (), hselected, rfl⟩

theorem exists_foldlM_checkRace_iff {races : List PlainRace} {seen : List String} :
    (∃ result, races.foldlM checkRace seen = .ok result) ↔
      (∀ race ∈ races, race.name ∉ seen ∧ race.selected = race.limit.toNat) ∧
        (races.map (·.name)).Nodup := by
  induction races generalizing seen with
  | nil => exact ⟨fun _ => ⟨by simp, List.nodup_nil⟩, fun _ => ⟨seen, rfl⟩⟩
  | cons race rest ih =>
    rw [List.map_cons, List.nodup_cons, List.forall_mem_cons]
    constructor
    · rintro ⟨result, hfold⟩
      rw [List.foldlM_cons] at hfold
      obtain ⟨_, hrace, hrest⟩ := bind_eq_ok_iff.1 hfold
      obtain ⟨hhead, rfl⟩ := checkRace_eq_ok_iff.1 hrace
      obtain ⟨htail, hnodup⟩ := ih.1 ⟨result, hrest⟩
      refine ⟨⟨hhead, fun other hother => ?_⟩, fun hmem => ?_, hnodup⟩
      · obtain ⟨hnew, hselected⟩ := htail other hother
        exact ⟨fun hseen => hnew (List.mem_cons_of_mem _ hseen), hselected⟩
      · obtain ⟨other, hother, hname⟩ := List.mem_map.1 hmem
        exact (htail other hother).1 (hname ▸ List.mem_cons_self)
    · rintro ⟨⟨hhead, htail⟩, hnew, hnodup⟩
      have hnext : ∀ other ∈ rest, other.name ∉ race.name :: seen ∧
          other.selected = other.limit.toNat := by
        intro other hother
        obtain ⟨hseen, hselected⟩ := htail other hother
        refine ⟨fun hmem => ?_, hselected⟩
        rcases List.mem_cons.1 hmem with hname | hmem
        · exact hnew (hname ▸ List.mem_map_of_mem hother)
        · exact hseen hmem
      obtain ⟨result, hresult⟩ := ih.2 ⟨hnext, hnodup⟩
      refine ⟨result, ?_⟩
      rw [List.foldlM_cons, checkRace_eq_ok_iff.2 ⟨hhead, rfl⟩]
      exact hresult

/-- The check passes exactly the ballots that can be sealed. -/
theorem check_eq_ok_iff {ballot : PlainBallot} : ballot.check = .ok () ↔ ballot.IsFilled := by
  have hfold : ballot.check = .ok () ↔ ∃ result, ballot.races.foldlM checkRace [] = .ok result := by
    rw [check, bind_eq_ok_iff]
    exact exists_congr fun result => and_iff_left rfl
  rw [hfold, exists_foldlM_checkRace_iff]
  constructor
  · rintro ⟨hraces, hnodup⟩
    exact ⟨hnodup, fun race hrace => (hraces race hrace).2⟩
  · rintro ⟨hnodup, hselected⟩
    exact ⟨fun race hrace => ⟨List.not_mem_nil, hselected race hrace⟩, hnodup⟩

theorem checkRace_eq_error {seen : List String} {race : PlainRace} {error : Error}
    (hcheck : checkRace seen race = .error error) : ∃ reason, error = .invalidSelection reason := by
  by_cases hnew : race.name ∉ seen
  · by_cases hselected : race.selected = race.limit.toNat
    · rw [checkRace_eq_ok_iff.2 ⟨⟨hnew, hselected⟩, rfl⟩] at hcheck
      cases hcheck
    · rw [checkRace, ensure_of _ hnew, ensure, if_neg hselected] at hcheck
      cases hcheck
      exact ⟨_, rfl⟩
  · rw [checkRace, ensure, if_neg hnew] at hcheck
    cases hcheck
    exact ⟨_, rfl⟩

/-- A ballot that cannot be sealed is refused for its selections. -/
theorem check_eq_error {ballot : PlainBallot} (hfilled : ¬ ballot.IsFilled) :
    ∃ reason, ballot.check = .error (.invalidSelection reason) := by
  cases hfold : ballot.races.foldlM checkRace [] with
  | ok seen =>
    have hcheck : ballot.check = .ok () := by
      rw [check, hfold]
      rfl
    exact absurd (check_eq_ok_iff.1 hcheck) hfilled
  | error error =>
    obtain ⟨_, _, _, _, _, _, hrace⟩ := exists_of_foldlM_eq_error hfold
    obtain ⟨reason, rfl⟩ := checkRace_eq_error hrace
    refine ⟨reason, ?_⟩
    rw [check, hfold]
    rfl

/-- A ballot that is filled in as its election asks can be sealed. -/
theorem FillsIn.isFilled {ballot : PlainBallot} {election : Election}
    (hfilled : ballot.FillsIn election) : ballot.IsFilled := by
  refine ⟨hfilled.names_perm.nodup_iff.2 election.races.keys_nodup, fun race hrace => ?_⟩
  obtain ⟨_, _, hfills⟩ := hfilled.races race hrace
  rw [hfills.selected_eq, hfills.limit_eq]

end PlainBallot

section Seal

variable {key : PublicKey} {nonce : Bytes} {prover : Prover}

/-- A vote encrypts its opening and its proof verifies. -/
structure SealedVote.Proves (vote : SealedVote) (key : PublicKey) (nonce : Bytes)
    (race candidate : String) (opening : Opening) : Prop where
  encrypts : Ciphertext.encrypt key opening.plaintext.toNat opening.randomness =
    .ok vote.ciphertext
  paired : vote.proof.IsPaired
  verifies : Transcript.onFresh (MembershipProof.verify Blake3.hash key vote.ciphertext vote.proof
    (voteContext nonce race candidate)) = .ok true

theorem Opening.completes_seal (opening : Opening) (race candidate : String)
    (hfresh : prover.transcript = .fresh) :
    (opening.seal key nonce race candidate).Completes prover fun vote reached =>
      vote.Proves key nonce race candidate opening ∧ reached.transcript = .fresh := by
  have hdomain : opening.plaintext ∈ MembershipProof.voteDomain := by
    rw [Opening.plaintext]
    cases opening.selected <;> decide
  have hencrypt := Ciphertext.encrypt_eq key opening.plaintext.toNat opening.randomness
  rw [Opening.seal]
  refine .lift_bind hencrypt ?_
  refine (MembershipProof.completes_proveInDomain Blake3.hash hdomain hencrypt _ hfresh).bind ?_
  rintro proof reached ⟨⟨hpaired, hverifies⟩, hreached⟩
  exact Action.completes_pure ⟨⟨hencrypt, hpaired, hverifies⟩, hreached⟩

/-- The candidates of a map of votes and of a map of openings, one by one. -/
theorem sum_plaintext_eq {votes : Dict String Bool} {openings : Dict String Opening}
    (hopenings : List.Forall₂ (fun vote opening => vote.1 = opening.1 ∧
      opening.2.selected = vote.2) votes.entries openings.entries) :
    (openings.values.map (·.plaintext.toNat)).sum = votes.values.count true := by
  rw [Dict.values, Dict.values]
  generalize votes.entries = selections at hopenings ⊢
  generalize openings.entries = entries at hopenings ⊢
  induction hopenings with
  | nil => rfl
  | @cons vote opening _ _ hhead _ ih =>
    have hplaintext : opening.2.plaintext.toNat = if vote.2 = true then 1 else 0 := by
      rw [Opening.plaintext, hhead.2]
      cases vote.2 <;> rfl
    rw [List.map_cons, List.map_cons, List.map_cons, List.sum_cons, List.count_cons, ih,
      hplaintext, Nat.add_comm]
    simp only [beq_iff_eq]

/-- Votes are encryptions of openings, candidate by candidate. -/
def AreOpened (key : PublicKey) (openings : Dict String Opening)
    (votes : Dict String SealedVote) : Prop :=
  List.Forall₂ (fun opening vote => opening.1 = vote.1 ∧ Ciphertext.encrypt key
    opening.2.plaintext.toNat opening.2.randomness = .ok vote.2.ciphertext)
    openings.entries votes.entries

theorem AreOpened.areEncryptions {openings : Dict String Opening} {votes : Dict String SealedVote}
    (hopened : AreOpened key openings votes) : Ciphertext.AreEncryptions key
      (openings.values.map fun opening => (opening.plaintext.toNat, opening.randomness))
      (votes.values.map (·.ciphertext)) := by
  rw [Dict.values, Dict.values, List.map_map, List.map_map, Ciphertext.AreEncryptions,
    List.forall₂_map_left_iff, List.forall₂_map_right_iff]
  exact hopened.imp fun _ _ hvote => hvote.2

/-- The plaintexts sum to the total that is declared of them. -/
def SumTo (key : PublicKey) (openings : Dict String Opening) (total : UInt64) : Prop :=
  key.group.powG (openings.values.map (·.plaintext.toNat)).sum = key.group.powG total.toNat

/-- A sealed race encrypts openings, candidate by candidate, and its proofs verify. -/
structure SealedRace.Seals (race : SealedRace) (key : PublicKey) (nonce : Bytes)
    (openings : Dict String Opening) : Prop where
  votes : List.Forall₂ (fun opening vote => opening.1 = vote.1 ∧
    vote.2.Proves key nonce race.name opening.1 opening.2) openings.entries race.votes.entries
  sum : race.verifySum key nonce = .ok ()

namespace SealedRace.Seals

variable {race : SealedRace} {openings : Dict String Opening}

theorem exists_proves (hseals : race.Seals key nonce openings) {entry : String × SealedVote}
    (hentry : entry ∈ race.votes.entries) : ∃ opening,
      openings.get? entry.1 = some opening ∧
        entry.2.Proves key nonce race.name entry.1 opening := by
  obtain ⟨opening, hopening, hkey, hproves⟩ := exists_of_mem_of_forall₂ hseals.votes hentry
  rw [← hkey]
  exact ⟨opening.2, Dict.get?_eq_some_iff.2 hopening, hproves⟩

theorem areOpened (hseals : race.Seals key nonce openings) : AreOpened key openings race.votes :=
  hseals.votes.imp fun _ _ hvote => ⟨hvote.1, hvote.2.encrypts⟩

theorem isPaired (hseals : race.Seals key nonce openings) : race.IsPaired := by
  intro entry hentry
  obtain ⟨_, _, hproves⟩ := hseals.exists_proves hentry
  exact hproves.paired

theorem verifyVotes (hseals : race.Seals key nonce openings) :
    race.verifyVotes key nonce = .ok () := by
  refine forM_eq_ok_iff.2 fun entry hentry => ?_
  obtain ⟨_, _, hproves⟩ := hseals.exists_proves hentry
  dsimp only
  rw [hproves.verifies]
  rfl

end SealedRace.Seals

theorem completes_sealRace (name : String) {limit : UInt64} {openings : Dict String Opening}
    (hsum : SumTo key openings limit) (hfresh : prover.transcript = .fresh) :
    (sealRace key name limit openings nonce).Completes prover fun race reached =>
      (race.name = name ∧ race.limit = limit ∧ race.Seals key nonce openings) ∧
        reached.transcript = .fresh := by
  rw [sealRace]
  refine (Dict.completes_mapM (I := fun prover : Prover => prover.transcript = .fresh)
    (R := fun candidate opening vote => vote.Proves key nonce name candidate opening)
    (fun entry _ prover hprover => entry.2.completes_seal name entry.1 hprover) hfresh).bind ?_
  rintro votes between ⟨hvotes, hbetween⟩
  have hopened : AreOpened key openings votes :=
    hvotes.imp fun _ _ hvote => ⟨hvote.1, hvote.2.encrypts⟩
  have htotal : key.group.powG ((openings.values.map fun opening =>
      (opening.plaintext.toNat, opening.randomness)).map (·.1)).sum =
        key.group.powG limit.toNat := by
    rw [List.map_map]
    exact hsum
  have hprove := SumProof.completes_prove Blake3.hash hopened.areEncryptions htotal
    (raceContext nonce name) hbetween
  rw [List.map_map] at hprove
  refine hprove.bind ?_
  rintro sumProof reached ⟨hverifies, hreached⟩
  refine Action.completes_pure ⟨⟨rfl, rfl, hvotes, ?_⟩, hreached⟩
  rw [SealedRace.verifySum, SealedRace.ciphertexts, hverifies]
  rfl

/-- A plain race is sealed in a race that encrypts openings of its selections. -/
structure PlainRace.SealsTo (plain : PlainRace) (key : PublicKey) (nonce : Bytes)
    (sealed : SealedRace × Dict String Opening) : Prop where
  name_eq : sealed.1.name = plain.name
  limit_eq : sealed.1.limit = plain.limit
  selections : List.Forall₂ (fun vote opening => vote.1 = opening.1 ∧
    opening.2.selected = vote.2) plain.votes.entries sealed.2.entries
  seals : sealed.1.Seals key nonce sealed.2

theorem PlainRace.SealsTo.proves {plain : PlainRace} {sealed : SealedRace × Dict String Opening}
    (hseals : plain.SealsTo key nonce sealed) : sealed.1.Proves key nonce plain where
  name_eq := hseals.name_eq
  limit_eq := hseals.limit_eq
  keys_eq := (Dict.keys_eq_of_forall₂ hseals.seals.votes).trans
    (Dict.keys_eq_of_forall₂ hseals.selections)
  paired := hseals.seals.isPaired
  votes := hseals.seals.verifyVotes
  sum := hseals.seals.sum

theorem PlainRace.completes_seal {race : PlainRace} (hselected : race.selected = race.limit.toNat)
    (hfresh : prover.transcript = .fresh) :
    (race.seal key nonce).Completes prover fun sealed reached =>
      race.SealsTo key nonce sealed ∧ reached.transcript = .fresh := by
  rw [PlainRace.seal]
  refine (Dict.completes_mapM (I := fun prover : Prover => prover.transcript = .fresh)
    (R := fun _ selected opening => opening.selected = selected)
    (fun entry _ prover hprover => ?_) hfresh).bind ?_
  · refine (Prover.completes_draw (Draw.completes_exponent key.group) hprover).bind ?_
    rintro randomness reached ⟨_, hreached⟩
    exact Action.completes_pure ⟨rfl, hreached⟩
  rintro openings between ⟨hopenings, hbetween⟩
  have hsum : SumTo key openings race.limit :=
    congrArg key.group.powG ((sum_plaintext_eq hopenings).trans hselected)
  refine (completes_sealRace race.name hsum hbetween).bind ?_
  rintro sealed reached ⟨⟨hname, hlimit, hseals⟩, hreached⟩
  exact Action.completes_pure ⟨⟨hname, hlimit, hopenings, hseals⟩, hreached⟩

namespace PlainBallot

/-- A ballot that can be sealed is sealed race by race, as long as random bytes are left. -/
theorem IsFilled.completes_seal {ballot : PlainBallot} (hfilled : ballot.IsFilled)
    (key : PublicKey) (nonce supply : Bytes) :
    (ballot.seal key nonce).Completes supply fun sealed _ => ∃ races,
      List.Forall₂ (fun plain pair => plain.SealsTo key nonce pair) ballot.races races ∧
        sealed = assemble ballot.id nonce races := by
  let Sealed (races : List (SealedRace × Dict String Opening)) : Prop :=
    List.Forall₂ (fun plain pair => plain.SealsTo key nonce pair) ballot.races races
  have hfresh : (⟨supply, .fresh⟩ : Prover).transcript = .fresh := rfl
  have hraces : (ballot.races.mapM (PlainRace.seal · key nonce)).Completes
      (⟨supply, .fresh⟩ : Prover) fun races reached =>
        Sealed races ∧ reached.transcript = .fresh :=
    Action.completes_mapM (I := fun prover : Prover => prover.transcript = .fresh)
      (fun race hrace _ hprover =>
        PlainRace.completes_seal (hfilled.selected_eq race hrace) hprover) hfresh
  have honFresh : (Prover.onFresh (ballot.races.mapM (PlainRace.seal · key nonce))).Completes
      supply fun races _ => Sealed races :=
    .zoom (hraces.imp fun _ _ hsealed => hsealed.1)
  rw [PlainBallot.seal]
  refine .liftExcept_bind (check_eq_ok_iff.2 hfilled) (honFresh.bind ?_)
  intro races reached hall
  exact Action.completes_pure ⟨races, hall, rfl⟩

theorem proves_assemble {ballot : PlainBallot} {races : List (SealedRace × Dict String Opening)}
    (hraces : List.Forall₂ (fun plain pair => plain.SealsTo key nonce pair) ballot.races races) :
    (assemble ballot.id nonce races).1.Proves key nonce ballot :=
  ⟨rfl, rfl, List.forall₂_map_right_iff.2 (hraces.imp fun _ _ hpair => hpair.proves)⟩

/-- A ballot that is filled in is sealed as long as random bytes are left. -/
theorem completes_seal {ballot : PlainBallot} {election : Election}
    (hfilled : ballot.FillsIn election) (key : PublicKey) (nonce supply : Bytes) :
    (ballot.seal key nonce).Completes supply fun sealed _ =>
      sealed.1.Proves key nonce ballot := by
  refine (hfilled.isFilled.completes_seal key nonce supply).imp fun sealed _ => ?_
  rintro ⟨races, hraces, rfl⟩
  exact proves_assemble hraces

end PlainBallot

end Seal

namespace SealedBallot.Proves

variable {ballot : SealedBallot} {key : PublicKey} {nonce : Bytes} {plain : PlainBallot}
  (hproves : ballot.Proves key nonce plain)

include hproves

theorem isPaired : ballot.IsPaired := by
  intro race hrace
  obtain ⟨_, _, hproves⟩ := exists_of_mem_of_forall₂ hproves.races hrace
  exact hproves.paired

theorem verify : ballot.verify key = .ok () := by
  have hrace : ∀ race ∈ ballot.races,
      race.verifyVotes key ballot.nonce = .ok () ∧ race.verifySum key ballot.nonce = .ok () := by
    intro race hrace
    obtain ⟨_, _, hrace⟩ := exists_of_mem_of_forall₂ hproves.races hrace
    rw [hproves.nonce_eq]
    exact ⟨hrace.votes, hrace.sum⟩
  have hvotes : (ballot.races.forM fun race => race.verifyVotes key ballot.nonce) = .ok () :=
    forM_eq_ok_iff.2 fun race hmem => (hrace race hmem).1
  rw [SealedBallot.verify, hvotes]
  exact forM_eq_ok_iff.2 fun race hmem => (hrace race hmem).2

/-- A sealed ballot agrees with the election that the plain one was filled in for. -/
theorem checkBallot {election : Election} (hfilled : plain.FillsIn election) :
    election.checkBallot ballot = .ok () := by
  refine Election.checkBallot_eq_ok_iff.2 ⟨?_, fun race hrace => ?_⟩
  · have hnames : plain.races.map (·.name) = ballot.races.map (·.name) :=
      map_eq_map_of_forall₂ hproves.races fun _ _ hrace => hrace.name_eq.symm
    rw [← hnames]
    exact hfilled.names_perm
  · obtain ⟨plainRace, hplain, hrace⟩ := exists_of_mem_of_forall₂ hproves.races hrace
    obtain ⟨definition, hdefinition, hfills⟩ := hfilled.races plainRace hplain
    exact ⟨definition, hrace.name_eq ▸ hdefinition, hrace.limit_eq.trans hfills.limit_eq,
      hrace.keys_eq.trans hfills.keys_eq⟩

end SealedBallot.Proves

end SecretBallot
