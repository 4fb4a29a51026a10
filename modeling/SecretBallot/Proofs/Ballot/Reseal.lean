import Mathlib
import SecretBallot.Proofs.Ballot.Encryption
import SecretBallot.Proofs.Consumption

namespace SecretBallot

/-- Two lists go together, element by element, each pair with exponents that are drawn one after the
    other. What is left behind them, or less, is what the next ones are drawn from. -/
inductive Draw.InTurn (group : Group) {α β : Type} (R : α → β → List Nat → Prop) :
    Bytes → List α → List β → Prop where
  | nil (supply) : InTurn group R supply [] []
  | cons {element result exps supply rest left list results} :
    exponents group exps.length supply = (.ok exps, rest) → left <:+ rest →
    R element result exps → InTurn group R left list results →
    InTurn group R supply (element :: list) (result :: results)

/-- The opening of a vote whose randomness was shifted. -/
def Opening.shifted (opening : Opening) (group : Group) (shift : Nat) : Opening :=
  ⟨opening.selected, group.addQ opening.randomness shift⟩

/-- The openings of a race, each shifted by its own exponent. -/
def shiftAll (group : Group) (entries : List (String × Opening)) (shifts : List Nat) :
    List (String × Opening) :=
  (entries.zip shifts).map fun entry => (entry.1.1, entry.1.2.shifted group entry.2)

/-- A race is sealed again from another one, its openings those of the other one with shifts. -/
structure IsSealedAgain (sealed before : SealedRace × Dict String Opening) (key : PublicKey)
    (nonce : Bytes) (shifts : List Nat) : Prop where
  length_eq : shifts.length = before.2.entries.length
  name_eq : sealed.1.name = before.1.name
  limit_eq : sealed.1.limit = before.1.limit
  openings : sealed.2.entries = shiftAll key.group before.2.entries shifts
  seals : sealed.1.Seals key nonce sealed.2

/-- A race is another one with shifts, one for each candidate in order: every ciphertext is
    re-randomized by its shift, and the witness of the one opens it with its randomness shifted. -/
structure SealedRace.IsShifted (race before : SealedRace) (key : PublicKey)
    (witness earlier : Witness) (shifts : List Nat) : Prop where
  name_eq : race.name = before.name
  limit_eq : race.limit = before.limit
  keys_eq : race.votes.keys = before.votes.keys
  length_eq : shifts.length = before.votes.keys.length
  votes : ∀ entry ∈ before.votes.keys.zip shifts, ∃ vote shifted opening,
    before.votes.get? entry.1 = some vote ∧ race.votes.get? entry.1 = some shifted ∧
    vote.ciphertext.reRandomize key entry.2 = .ok shifted.ciphertext ∧
    earlier.get? before.name entry.1 = some opening ∧
    witness.get? race.name entry.1 =
      some ⟨opening.selected, (opening.randomness + entry.2) % key.group.q⟩

/-- A sealed ballot with its witness is another one sealed again, race by race with the shifts that
    are drawn in turn, and it still encrypts the same plain ballot. -/
structure IsResealed (sealed before : SealedBallot × Witness) (key : PublicKey)
    (plain : PlainBallot) (nonce supply : Bytes) : Prop where
  id_eq : sealed.1.id = before.1.id
  nonce_eq : sealed.1.nonce = nonce
  races : Draw.InTurn key.group (fun former race shifts =>
    race.IsShifted former key sealed.2 before.2 shifts) supply before.1.races sealed.1.races
  verify : sealed.1.verify key = .ok ()
  opens : sealed.2.Opens key sealed.1
  decrypt : ∀ decryptionKey : DecryptionKey, decryptionKey.fits key = true →
    sealed.1.decrypt decryptionKey = .ok plain

/-- What a ballot is sealed again with. -/
structure Resealing where
  nonce : Bytes
  supply : Bytes

/-- Seals a ballot again and again, each time the ballot and the witness that came out last. -/
def resealAll (key : PublicKey) :
    List Resealing → SealedBallot × Witness → Outcome (List (SealedBallot × Witness))
  | [], _ => pure []
  | step :: steps, sealed => do
    let next ← (sealed.1.reseal key sealed.2 step.nonce step.supply).1
    let others ← resealAll key steps next
    pure (next :: others)

/-- Each of a list of sealed ballots is the one before it sealed again. -/
inductive IsChain (key : PublicKey) (plain : PlainBallot) :
    SealedBallot × Witness → List Resealing → List (SealedBallot × Witness) → Prop where
  | nil (sealed) : IsChain key plain sealed [] []
  | cons {before step sealed steps results} :
    IsResealed sealed before key plain step.nonce step.supply →
    IsChain key plain sealed steps results →
    IsChain key plain before (step :: steps) (sealed :: results)

section InTurn

variable {group : Group} {α β γ δ : Type} {R : α → β → List Nat → Prop} {supply : Bytes}
  {list : List α} {results : List β}

theorem Draw.InTurn.forall₂ (hturn : InTurn group R supply list results) :
    List.Forall₂ (fun element result => ∃ exps, R element result exps) list results := by
  induction hturn with
  | nil => exact .nil
  | cons _ _ hhead _ ih => exact .cons ⟨_, hhead⟩ ih

theorem Draw.InTurn.map {S : γ → δ → List Nat → Prop} {f : α → γ} {g : β → δ}
    (hturn : InTurn group R supply list results)
    (hS : ∀ element ∈ list, ∀ result ∈ results, ∀ exps, R element result exps →
      S (f element) (g result) exps) :
    InTurn group S supply (list.map f) (results.map g) := by
  induction hturn with
  | nil => exact .nil _
  | cons hdrawn hleft hhead _ ih =>
    refine .cons hdrawn hleft (hS _ List.mem_cons_self _ List.mem_cons_self _ hhead) (ih ?_)
    exact fun element helement result hresult =>
      hS element (List.mem_cons_of_mem _ helement) result (List.mem_cons_of_mem _ hresult)

/-- A list is processed in turn if every element starts with drawing its exponents. -/
theorem Prover.completes_inTurn {f : α → Action Prover β}
    (hf : ∀ element ∈ list, ∀ prover : Prover, prover.transcript = .fresh →
      (f element).Completes prover fun result reached => ∃ exps rest,
        Draw.exponents group exps.length prover.supply = (.ok exps, rest) ∧
        reached.supply <:+ rest ∧ R element result exps ∧ reached.transcript = .fresh)
    {prover : Prover} (hfresh : prover.transcript = .fresh) :
    (list.mapM f).Completes prover fun results _ =>
      Draw.InTurn group R prover.supply list results := by
  induction list generalizing prover with
  | nil =>
    rw [List.mapM_nil]
    exact Action.completes_pure (.nil _)
  | cons head tail ih =>
    obtain ⟨hhead, htail⟩ := List.forall_mem_cons.1 hf
    rw [List.mapM_cons]
    refine (hhead prover hfresh).bind ?_
    rintro first between ⟨exps, rest, hdrawn, hleft, hfirst, hbetween⟩
    refine (ih htail hbetween).bind fun others reached hothers => ?_
    exact Action.completes_pure (.cons hdrawn hleft hfirst hothers)

end InTurn

section Law

variable {key : PublicKey}

/-- Re-randomizing an encryption adds to its randomness. -/
theorem Ciphertext.reRandomize_eq_encrypt {m r : Nat} {ciphertext : Ciphertext}
    (hencrypt : encrypt key m r = .ok ciphertext) (shift : Nat) :
    ciphertext.reRandomize key shift = encrypt key m (r + shift) := by
  obtain ⟨zero, hzero⟩ := exists_encrypt key 0 shift
  have hproduct := encrypt_add hencrypt hzero
  rw [Nat.add_zero] at hproduct
  rw [reRandomize, hzero, hproduct]
  rfl

/-- Re-randomizing an encryption shifts its randomness. -/
theorem Ciphertext.reRandomize_of_encrypt {m r : Nat} {ciphertext : Ciphertext}
    (hencrypt : encrypt key m r = .ok ciphertext) (shift : Nat) :
    ciphertext.reRandomize key shift = encrypt key m (key.group.addQ r shift) := by
  rw [reRandomize_eq_encrypt hencrypt]
  apply encrypt_congr rfl
  rw [Group.cast_addQ, Nat.cast_add]

end Law

section Shift

variable {key : PublicKey} {witness : Witness} {prover : Prover} {name : String}

/-- A vote that the witness opens is shifted by an exponent that is drawn next. -/
theorem Witness.completes_shift {candidate : String} {vote : SealedVote} {opening : Opening}
    (hopening : witness.get? name candidate = some opening)
    (hencrypt : Ciphertext.encrypt key opening.plaintext.toNat opening.randomness =
      .ok vote.ciphertext) :
    (witness.shift key name candidate vote).Completes prover fun shifted reached =>
      ∃ shift, Draw.exponent key.group prover.supply = (.ok shift, reached.supply) ∧
        shifted = opening.shifted key.group shift ∧ reached.transcript = prover.transcript := by
  have hdraw : (Prover.draw (Draw.exponent key.group)).Completes prover fun shift reached =>
      Draw.exponent key.group prover.supply = (.ok shift, reached.supply) ∧
        reached.transcript = prover.transcript :=
    .zoom ((Draw.completes_exponent key.group prover.supply).and_run.imp fun _ _ hdrawn =>
      ⟨hdrawn.2, rfl⟩)
  rw [shift, hopening]
  refine .lift_bind hencrypt (.ensure_bind rfl (hdraw.bind ?_))
  rintro shift reached ⟨hdrawn, hreached⟩
  exact Action.completes_pure ⟨shift, hdrawn, rfl, hreached⟩

/-- The votes of a race are shifted by exponents that are drawn one after the other. -/
theorem Witness.completes_shiftAll {openings : List (String × Opening)}
    {votes : List (String × SealedVote)}
    (hopens : List.Forall₂ (fun opening vote => opening.1 = vote.1 ∧
      witness.get? name vote.1 = some opening.2 ∧ Ciphertext.encrypt key
        opening.2.plaintext.toNat opening.2.randomness = .ok vote.2.ciphertext) openings votes) :
    (votes.mapM fun entry => do
      let shifted ← witness.shift key name entry.1 entry.2
      pure (entry.1, shifted) : Action Prover (List (String × Opening))).Completes prover
      fun entries reached => ∃ shifts,
        Draw.exponents key.group openings.length prover.supply = (.ok shifts, reached.supply) ∧
        entries = shiftAll key.group openings shifts ∧ reached.transcript = prover.transcript := by
  induction hopens generalizing prover with
  | nil => exact Action.completes_pure ⟨[], rfl, rfl, rfl⟩
  | @cons opening vote _ _ hhead _ ih =>
    obtain ⟨hkey, hopening, hencrypt⟩ := hhead
    rw [List.mapM_cons, bind_assoc]
    refine (completes_shift hopening hencrypt).bind ?_
    rintro _ between ⟨shift, hdrawn, rfl, hbetween⟩
    rw [pure_bind]
    refine ih.bind ?_
    rintro _ reached ⟨shifts, hshifts, rfl, hreached⟩
    refine Action.completes_pure ⟨shift :: shifts, ?_, ?_, hreached.trans hbetween⟩
    · rw [List.length_cons, Draw.exponents, Action.bind_of_ok hdrawn, Action.bind_of_ok hshifts,
        Action.pure_apply]
    · rw [← hkey]
      rfl

theorem forall₂_shiftAll (group : Group) {openings : List (String × Opening)} {shifts : List Nat}
    (hlength : shifts.length = openings.length) :
    List.Forall₂ (fun opening shifted => opening.1 = shifted.1 ∧
      shifted.2.selected = opening.2.selected) openings (shiftAll group openings shifts) := by
  induction openings generalizing shifts with
  | nil => exact .nil
  | cons opening rest ih =>
    cases shifts with
    | nil => cases hlength
    | cons shift others => exact .cons ⟨rfl, rfl⟩ (ih (Nat.succ.inj hlength))

section Opened

variable {before : SealedRace × Dict String Opening}
  (hopened : AreOpened key before.2 before.1.votes) {nonce : Bytes} {shifts : List Nat}

include hopened

/-- A witness that has the openings of a race opens its votes. -/
theorem AreOpened.forall₂_opens
    (hwitness : ∀ candidate opening, before.2.get? candidate = some opening →
      witness.get? before.1.name candidate = some opening) :
    List.Forall₂ (fun opening vote => opening.1 = vote.1 ∧
      witness.get? before.1.name vote.1 = some opening.2 ∧ Ciphertext.encrypt key
        opening.2.plaintext.toNat opening.2.randomness = .ok vote.2.ciphertext)
      before.2.entries before.1.votes.entries := by
  refine List.forall₂_iff_zip.2 ⟨hopened.length_eq, fun {opening vote} hmem => ?_⟩
  obtain ⟨hkey, hencrypts⟩ := List.forall₂_zip hopened hmem
  refine ⟨hkey, ?_, hencrypts⟩
  rw [← hkey]
  exact hwitness _ _ (Dict.get?_eq_some_iff.2 (List.of_mem_zip hmem).1)

/-- A race whose openings the witness has, and sum to what it declares, is sealed again, as long as
    random bytes are left. -/
theorem SealedRace.completes_reseal (hsum : SumTo key before.2 before.1.limit)
    (hwitness : ∀ candidate opening, before.2.get? candidate = some opening →
      witness.get? before.1.name candidate = some opening)
    (hfresh : prover.transcript = .fresh) :
    (before.1.reseal key witness nonce).Completes prover fun sealed reached => ∃ shifts rest,
      Draw.exponents key.group shifts.length prover.supply = (.ok shifts, rest) ∧
      reached.supply <:+ rest ∧ IsSealedAgain sealed before key nonce shifts ∧
      reached.transcript = .fresh := by
  rw [SealedRace.reseal, Dict.mapM, bind_assoc]
  refine (Witness.completes_shiftAll (hopened.forall₂_opens hwitness)).bind ?_
  rintro _ between ⟨shifts, hshifts, rfl, hbetween⟩
  rw [pure_bind]
  have hlength : shifts.length = before.2.entries.length := (Draw.exponents_spec hshifts).1
  have hshifted := forall₂_shiftAll key.group hlength
  have hentries : (Dict.ofList (shiftAll key.group before.2.entries shifts)).entries =
      shiftAll key.group before.2.entries shifts :=
    Dict.entries_ofList hshifted
  have hplaintexts : (Dict.ofList (shiftAll key.group before.2.entries shifts)).values.map
      (·.plaintext.toNat) = before.2.values.map (·.plaintext.toNat) := by
    rw [Dict.values, Dict.values, hentries, List.map_map, List.map_map]
    refine (map_eq_map_of_forall₂ hshifted fun opening shifted hsame => ?_).symm
    simp only [Function.comp_apply, Opening.plaintext, hsame.2]
  have hshiftedSum : SumTo key (Dict.ofList (shiftAll key.group before.2.entries shifts))
      before.1.limit := by
    rw [SumTo, hplaintexts]
    exact hsum
  refine ((completes_sealRace before.1.name hshiftedSum (hbetween.trans hfresh)).and_consumes
    (consumes_sealRace ..)).bind ?_
  rintro sealed reached ⟨⟨⟨hname, hlimit, hsealed⟩, hreached⟩, hrest⟩
  refine Action.completes_pure ⟨shifts, between.supply, hlength ▸ hshifts, hrest, ?_, hreached⟩
  exact ⟨hlength, hname, hlimit, hentries, hsealed⟩

end Opened

section Race

variable {plain : PlainRace} {before : SealedRace × Dict String Opening} {old nonce : Bytes}
  {shifts : List Nat} (hseals : plain.SealsTo key old before)

include hseals

theorem PlainRace.SealsTo.selections_shifted (hlength : shifts.length = before.2.entries.length) :
    List.Forall₂ (fun vote opening => vote.1 = opening.1 ∧ opening.2.selected = vote.2)
      plain.votes.entries (shiftAll key.group before.2.entries shifts) := by
  refine forall₂_comp ?_ hseals.selections (forall₂_shiftAll key.group hlength)
  rintro selection opening shifted ⟨hkey, hselection⟩ ⟨hsame, hkept⟩
  exact ⟨hkey.trans hsame, hkept.trans hselection⟩

theorem PlainRace.SealsTo.sumTo (hselected : plain.selected = plain.limit.toNat) :
    SumTo key before.2 before.1.limit := by
  rw [SumTo, hseals.limit_eq, ← hselected, sum_plaintext_eq hseals.selections]
  rfl

/-- A race that is sealed again is still a race of the same selections. -/
theorem PlainRace.SealsTo.again {sealed : SealedRace × Dict String Opening}
    (hagain : IsSealedAgain sealed before key nonce shifts) :
    plain.SealsTo key nonce sealed where
  name_eq := hagain.name_eq.trans hseals.name_eq
  limit_eq := hagain.limit_eq.trans hseals.limit_eq
  selections := hagain.openings ▸ hseals.selections_shifted hagain.length_eq
  seals := hagain.seals

/-- What a race encrypts is what it was sealed from. -/
theorem PlainRace.SealsTo.encrypts : before.1.Encrypts key plain := by
  refine ⟨hseals.name_eq, hseals.limit_eq, ?_⟩
  refine (forall₂_comp ?_ hseals.selections hseals.seals.votes).flip
  rintro selection opening vote ⟨hkey, hselection⟩ ⟨hsame, hproves⟩
  refine ⟨(hkey.trans hsame).symm, opening.2.randomness, ?_⟩
  rw [← hselection, ← opening.2.toNat_plaintext]
  exact hproves.encrypts

end Race

end Shift

section Ballot

variable {key : PublicKey} {plain : PlainBallot} {old nonce supply : Bytes}
  {races others : List (SealedRace × Dict String Opening)}

/-- The witness of races with distinct names has the openings of each race. -/
theorem Witness.get?_assemble_of_mem {id : String} (hnames : (races.map (·.1.name)).Nodup)
    {pair : SealedRace × Dict String Opening} (hpair : pair ∈ races) (candidate : String) :
    (assemble id nonce races).2.get? pair.1.name candidate = pair.2.get? candidate := by
  refine Option.ext fun opening => ⟨fun hopening => ?_, fun hopening => ?_⟩
  · obtain ⟨other, hother, hname, hfound⟩ := exists_of_get?_assemble hopening
    obtain rfl := List.inj_on_of_nodup_map hnames hother hpair hname
    exact hfound
  · exact get?_assemble_of_keepsOpenings (keepsOpenings_of_nodup hnames) hpair hopening

/-- Every vote of a race that is sealed again was re-randomized by its shift. -/
theorem IsSealedAgain.isShifted {sealed before : SealedRace × Dict String Opening}
    {witness earlier : Witness} {shifts : List Nat}
    (hagain : IsSealedAgain sealed before key nonce shifts)
    (hbefore : before.1.Seals key old before.2)
    (hearlier : ∀ candidate, earlier.get? before.1.name candidate = before.2.get? candidate)
    (hwitness : ∀ candidate, witness.get? sealed.1.name candidate = sealed.2.get? candidate) :
    sealed.1.IsShifted before.1 key witness earlier shifts := by
  have hkeys : before.1.votes.keys = before.2.keys := Dict.keys_eq_of_forall₂ hbefore.votes
  have hopenings : sealed.2.keys = before.2.keys := by
    rw [Dict.keys, hagain.openings]
    exact (map_eq_map_of_forall₂ (forall₂_shiftAll key.group hagain.length_eq) fun _ _ hsame =>
      hsame.1).symm
  refine ⟨hagain.name_eq, hagain.limit_eq, ?_, ?_, ?_⟩
  · rw [Dict.keys_eq_of_forall₂ hagain.seals.votes, hopenings, hkeys]
  · rw [hkeys, Dict.length_keys]
    exact hagain.length_eq
  rw [hkeys, Dict.keys, List.zip_map_left, List.forall_mem_map]
  rintro ⟨⟨candidate, opening⟩, shift⟩ hmem
  have hopening : (candidate, opening) ∈ before.2.entries := (List.of_mem_zip hmem).1
  have hshifted : (candidate, opening.shifted key.group shift) ∈ sealed.2.entries :=
    hagain.openings ▸ List.mem_map_of_mem hmem
  obtain ⟨vote, hvote, rfl, hproves⟩ := exists_of_mem_of_forall₂ hbefore.votes.flip hopening
  obtain ⟨⟨name, shifted⟩, hsealed, hsame, hagain⟩ :=
    exists_of_mem_of_forall₂ hagain.seals.votes.flip hshifted
  obtain rfl : vote.1 = name := hsame
  refine ⟨vote.2, shifted, opening, Dict.get?_eq_some_iff.2 hvote, Dict.get?_eq_some_iff.2 hsealed,
    ?_, ?_, ?_⟩
  · rw [Ciphertext.reRandomize_of_encrypt hproves.encrypts]
    exact hagain.encrypts
  · rw [hearlier]
    exact Dict.get?_eq_some_iff.2 hopening
  · rw [hwitness]
    exact Dict.get?_eq_some_iff.2 hshifted

/-- A ballot of races with openings, none of which are replaced in its witness, is sealed again race
    by race, as long as random bytes are left. -/
theorem completes_reseal_assemble (id : String)
    (hopened : ∀ pair ∈ races, AreOpened key pair.2 pair.1.votes)
    (hsum : ∀ pair ∈ races, SumTo key pair.2 pair.1.limit) (hkeeps : KeepsOpenings races)
    (nonce supply : Bytes) :
    ((assemble id old races).1.reseal key (assemble id old races).2 nonce).Completes supply
      fun sealed _ => ∃ others, Draw.InTurn key.group (fun before sealed shifts =>
        IsSealedAgain sealed before key nonce shifts) supply races others ∧
          sealed = assemble id nonce others := by
  let witness := (assemble id old races).2
  have hopens : witness.Opens key (assemble id old races).1 :=
    (Witness.opens_assemble_iff hopened).2 hkeeps
  have hall : (races.mapM fun pair : SealedRace × Dict String Opening =>
      pair.1.reseal key witness nonce).Completes (⟨supply, .fresh⟩ : Prover) fun others _ =>
        Draw.InTurn key.group (fun before sealed shifts =>
          IsSealedAgain sealed before key nonce shifts) supply races others := by
    refine Prover.completes_inTurn (fun pair hpair prover hprover => ?_) rfl
    exact SealedRace.completes_reseal (hopened pair hpair) (hsum pair hpair)
      (fun _ _ => Witness.get?_assemble_of_keepsOpenings hkeeps hpair) hprover
  have honFresh : (Prover.onFresh ((assemble id old races).1.races.mapM fun race =>
      race.reseal key witness nonce)).Completes supply fun others _ =>
        Draw.InTurn key.group (fun before sealed shifts =>
          IsSealedAgain sealed before key nonce shifts) supply races others := by
    rw [assemble, List.mapM_map]
    exact .zoom hall
  refine .ensure_bind hopens.size_eq (honFresh.bind fun others _ hothers => ?_)
  exact Action.completes_pure ⟨others, hothers, rfl⟩

namespace PlainBallot

/-- A ballot that was sealed race by race is sealed again race by race, as long as random bytes are
    left. -/
theorem IsFilled.completes_reseal (hfilled : plain.IsFilled)
    (hraces : List.Forall₂ (fun plain pair => plain.SealsTo key old pair) plain.races races)
    (nonce supply : Bytes) :
    ((assemble plain.id old races).1.reseal key (assemble plain.id old races).2 nonce).Completes
      supply fun sealed _ => ∃ others, Draw.InTurn key.group (fun before sealed shifts =>
        IsSealedAgain sealed before key nonce shifts) supply races others ∧
          sealed = assemble plain.id nonce others := by
  refine completes_reseal_assemble plain.id
    (fun pair hpair => (seals_of_sealsTo hraces pair hpair).areOpened) (fun pair hpair => ?_)
    (keepsOpenings_of_nodup (names_nodup_of_sealsTo hraces hfilled)) nonce supply
  obtain ⟨plainRace, hplain, hseals⟩ := exists_of_mem_of_forall₂ hraces hpair
  exact hseals.sumTo (hfilled.selected_eq plainRace hplain)

theorem isResealed_assemble (hfilled : plain.IsFilled)
    (hraces : List.Forall₂ (fun plain pair => plain.SealsTo key old pair) plain.races races)
    (hagain : Draw.InTurn key.group (fun before sealed shifts =>
      IsSealedAgain sealed before key nonce shifts) supply races others) :
    List.Forall₂ (fun plain pair => plain.SealsTo key nonce pair) plain.races others ∧
      IsResealed (assemble plain.id nonce others) (assemble plain.id old races) key plain nonce
        supply := by
  have hothers : List.Forall₂ (fun plain pair => plain.SealsTo key nonce pair) plain.races
      others := by
    refine forall₂_comp ?_ hraces hagain.forall₂
    rintro race before sealed hseals ⟨shifts, hshifts⟩
    exact hseals.again hshifts
  have hnames := names_nodup_of_sealsTo hraces hfilled
  have hothersNames := names_nodup_of_sealsTo hothers hfilled
  refine ⟨hothers, rfl, rfl, ?_, (proves_assemble hothers).verify,
    Witness.opens_assemble hothersNames (seals_of_sealsTo hothers), fun decryptionKey hfits => ?_⟩
  · refine hagain.map fun before hbefore sealed hsealed shifts hshifts => ?_
    exact hshifts.isShifted (seals_of_sealsTo hraces before hbefore)
      (Witness.get?_assemble_of_mem hnames hbefore)
      (Witness.get?_assemble_of_mem hothersNames hsealed)
  · refine SealedBallot.decrypt_of_encrypts hfits ⟨rfl, List.forall₂_map_left_iff.2 ?_⟩
    exact (hothers.imp fun _ _ hseals => hseals.encrypts).flip

/-- What sealing race by race has made is sealed again as often as random bytes last. -/
theorem exists_chain (hfilled : plain.IsFilled)
    (hraces : List.Forall₂ (fun plain pair => plain.SealsTo key old pair) plain.races races)
    (steps : List Resealing)
    (hleft : resealAll key steps (assemble plain.id old races) ≠ .error .exhausted) :
    ∃ results, resealAll key steps (assemble plain.id old races) = .ok results ∧
      IsChain key plain (assemble plain.id old races) steps results := by
  -- What the next step needs of the one before is that its races are sealed for the plain ones.
  induction steps generalizing old races with
  | nil => exact ⟨[], rfl, .nil _⟩
  | cons step steps ih =>
    rw [resealAll] at hleft ⊢
    obtain ⟨sealed, reached, hrun, others, hagain, rfl⟩ | ⟨reached, hrun⟩ :=
      (hfilled.completes_reseal hraces step.nonce step.supply).cases
    · rw [hrun] at hleft ⊢
      obtain ⟨hothers, hresealed⟩ := isResealed_assemble hfilled hraces hagain
      have hrest : resealAll key steps (assemble plain.id step.nonce others) ≠
          .error .exhausted := by
        intro hexhausted
        refine hleft ?_
        change (resealAll key steps (assemble plain.id step.nonce others) >>= _) = _
        rw [hexhausted]
        rfl
      obtain ⟨results, hresults, hchain⟩ := ih hothers hrest
      refine ⟨_ :: results, ?_, .cons hresealed hchain⟩
      change (resealAll key steps (assemble plain.id step.nonce others) >>= _) = _
      rw [hresults]
      rfl
    · rw [hrun] at hleft
      exact absurd rfl hleft

/-- A ballot that was sealed can be sealed again any number of times, as long as random bytes are
    left, each time the ballot and the witness that came out last. Every ballot of the chain has the
    races of the one before it, its ciphertexts are those of the one before it re-randomized by the
    shifts that were drawn, the witness opens it with its randomness shifted, it verifies under the
    new nonce, and the key that fits decrypts it to the plain ballot. -/
theorem resealed_any_number_of_times {sealed : SealedBallot × Witness} {rest : Bytes}
    (hseal : plain.seal key nonce supply = (.ok sealed, rest)) (steps : List Resealing)
    (hleft : resealAll key steps sealed ≠ .error .exhausted) :
    ∃ results, resealAll key steps sealed = .ok results ∧
      IsChain key plain sealed steps results := by
  have hfilled := isFilled_of_seal hseal
  obtain ⟨races, hraces, rfl⟩ := (hfilled.completes_seal key nonce supply).of_ok hseal
  exact exists_chain hfilled hraces steps hleft

/-- Twice in the smallest group. -/
theorem resealed_any_number_of_times_smallest :
    let steps : List Resealing := [⟨[8], [1, 0, 0, 1, 1, 0]⟩, ⟨[9], [1, 1, 0, 0, 1, 1]⟩]
    ∃ sealed rest results, small.seal .smallest [7] [0, 1, 1, 0, 1, 0] = (.ok sealed, rest) ∧
      resealAll .smallest steps sealed = .ok results ∧
      IsChain .smallest small sealed steps results := by
  intro steps
  have hleft : ((small.seal .smallest [7] [0, 1, 1, 0, 1, 0]).1 >>= resealAll .smallest steps) ≠
      .error .exhausted := by decide +kernel
  rcases hseal : small.seal .smallest [7] [0, 1, 1, 0, 1, 0] with ⟨outcome, rest⟩
  rw [hseal] at hleft
  cases outcome with
  | error failure =>
    have hfilled : (small.seal .smallest [7] [0, 1, 1, 0, 1, 0]).1.toOption.isSome = true := by
      decide +kernel
    rw [hseal] at hfilled
    cases hfilled
  | ok sealed =>
    obtain ⟨results, hresults, hchain⟩ := resealed_any_number_of_times hseal steps hleft
    exact ⟨sealed, rest, results, rfl, hresults, hchain⟩

end PlainBallot

end Ballot

end SecretBallot
