import Mathlib
import SecretBallot.Proofs.Tally.Report

namespace SecretBallot

namespace Engine

section Kept

variable {engine changed : Engine} {ballot : SealedBallot} {nonce : Bytes} {id : String}

theorem get?_byId_withBallot (other : String) : (engine.withBallot ballot nonce).byId.get? other =
    if other = ballot.id then some nonce else engine.byId.get? other :=
  Dict.get?_insert _ _ _ _

theorem get?_move {state : BallotState} {other : Bytes} (hother : other ≠ nonce) :
    (engine.move nonce state).byNonce.get? other = engine.byNonce.get? other := by
  rw [move, Dict.get?_modify]
  simp only [if_neg hother, Option.map_id']

/-- No call forgets an id. -/
theorem Change.byId_eq (hchange : engine.Change changed) (hid : engine.byId.get? id = some nonce) :
    changed.byId.get? id = some nonce := by
  cases hchange with
  | none => exact hid
  | record recorded other hadmits =>
    have hne : id ≠ recorded.id := by
      rintro rfl
      rw [hadmits.new_id] at hid
      cases hid
    rw [get?_byId_withBallot, if_neg hne, hid]
  | confirm => exact hid
  | challenge => exact hid
  | phase => exact hid

/-- No call replaces a recorded ballot. -/
theorem Change.ballot?_eq (hchange : engine.Change changed)
    (hballot : engine.ballot? nonce = some ballot) : changed.ballot? nonce = some ballot := by
  cases hchange with
  | none => exact hballot
  | record recorded other hadmits =>
    have hne : nonce ≠ other := by
      rintro rfl
      rw [ballot?, hadmits.new_nonce] at hballot
      cases hballot
    rw [ballot?_withBallot, if_neg hne, hballot]
  | confirm _ other =>
    change (engine.move other .confirmed).ballot? nonce = _
    rw [ballot?_move, hballot]
  | challenge => rw [ballot?_move, hballot]
  | phase => exact hballot

/-- No call moves a ballot that has left the committed state. -/
theorem Change.entry_eq (hchange : engine.Change changed) {entry : Entry}
    (hentry : engine.byNonce.get? nonce = some entry) (hstate : entry.state ≠ .committed) :
    changed.byNonce.get? nonce = some entry := by
  have hne {moved : SealedBallot} {other : Bytes}
      (hother : engine.byNonce.get? other = some ⟨moved, .committed⟩) : nonce ≠ other := by
    rintro rfl
    obtain rfl := Option.some.inj (hentry.symm.trans hother)
    exact hstate rfl
  cases hchange with
  | none => exact hentry
  | record recorded other hadmits =>
    have hne : nonce ≠ other := by
      rintro rfl
      rw [hadmits.new_nonce] at hentry
      cases hentry
    rw [get?_withBallot, if_neg hne, hentry]
  | confirm moved other _ hother =>
    change (engine.move other .confirmed).byNonce.get? nonce = _
    rw [get?_move (hne hother), hentry]
  | challenge moved other _ hother => rw [get?_move (hne hother), hentry]
  | phase => exact hentry

end Kept

section Commit

variable {ballot : SealedBallot}

/-- A ballot with short enough fields is recorded from its message as it would be directly. -/
theorem handleCommit_new (hpaired : ballot.IsPaired) (hfits : ballot.Fits) (sender : UInt32)
    (precinct : String) (engine : Engine) :
    handleCommit (.new sender precinct ballot) engine = record ballot ballot.nonce engine := by
  have hdecode : (Wire.decode (Wire.encode ballot) : Except Error SealedBallot) = .ok ballot :=
    Wire.decode_encode_of_reads (Wire.Decoder.reads_ballot hpaired hfits)
  rw [handleCommit, CommitEvent.new, Action.liftExcept_bind_apply, hdecode]
  dsimp only
  rw [Action.ensure_bind_apply, if_pos rfl]

variable {engine : Engine} {id : String} {nonce : Bytes}

/-- Scanning a committed ballot confirms it. -/
theorem handleScan_of_committed (hopened : engine.phase = .opened)
    (hid : engine.byId.get? id = some nonce)
    (hentry : engine.byNonce.get? nonce = some ⟨ballot, .committed⟩) (sender : UInt32) :
    handleScan ⟨sender, id⟩ engine = (.ok true, engine.withConfirmed ballot nonce) := by
  rw [handleScan_apply, hid]
  dsimp only
  rw [confirm_apply, if_pos hopened, hentry]

/-- Scanning a confirmed ballot changes nothing. -/
theorem handleScan_of_confirmed (hopened : engine.phase = .opened)
    (hid : engine.byId.get? id = some nonce)
    (hentry : engine.byNonce.get? nonce = some ⟨ballot, .confirmed⟩) (sender : UInt32) :
    handleScan ⟨sender, id⟩ engine = (.ok false, engine) := by
  rw [handleScan_apply, hid]
  dsimp only
  rw [confirm_apply, if_pos hopened, hentry]

/-- After the first scan of a committed ballot every later one finds it confirmed. -/
theorem handleScan_afterAll (hid : engine.byId.get? id = some nonce)
    (hentry : engine.byNonce.get? nonce = some ⟨ballot, .committed⟩) (later : List Call) :
    let reached := (engine.withConfirmed ballot nonce).afterAll later
    reached.phase = .opened → ∀ sender, handleScan ⟨sender, id⟩ reached = (.ok false, reached) := by
  intro reached hopened sender
  have hconfirmed : (engine.withConfirmed ballot nonce).byNonce.get? nonce =
      some ⟨ballot, .confirmed⟩ := by
    change (engine.move nonce .confirmed).byNonce.get? nonce = _
    rw [move, Dict.get?_modify, hentry, Option.map_some, if_pos rfl]
  let Kept (engine : Engine) : Prop := engine.byId.get? id = some nonce ∧
    engine.byNonce.get? nonce = some ⟨ballot, .confirmed⟩
  have hstart : Kept (engine.withConfirmed ballot nonce) := ⟨hid, hconfirmed⟩
  have hkept : Kept reached := by
    refine afterAll_of_change Kept (fun _ _ hkept hchange => ?_) hstart later
    exact ⟨hchange.byId_eq hkept.1, hchange.entry_eq hkept.2 BallotState.noConfusion⟩
  exact handleScan_of_confirmed hopened hkept.1 hkept.2 sender

/-- As long as a new ballot is only committed, its first scan confirms it, whatever was asked of
    the engine in between. -/
theorem handleScan_withBallot (between : List Call) :
    let reached := (engine.withBallot ballot nonce).afterAll between
    reached.phase = .opened → reached.state? nonce = some .committed →
      ∀ sender, handleScan ⟨sender, ballot.id⟩ reached =
          (.ok true, reached.withConfirmed ballot nonce) ∧
        ∀ later, let last := (reached.withConfirmed ballot nonce).afterAll later
          last.phase = .opened →
            ∀ sender, handleScan ⟨sender, ballot.id⟩ last = (.ok false, last) := by
  intro reached hopened hstate sender
  let Kept (engine : Engine) : Prop :=
    engine.byId.get? ballot.id = some nonce ∧ engine.ballot? nonce = some ballot
  have hstart : Kept (engine.withBallot ballot nonce) := by
    refine ⟨?_, ?_⟩
    · rw [get?_byId_withBallot, if_pos rfl]
    · rw [ballot?_withBallot, if_pos rfl]
  have hkept : Kept reached := by
    refine afterAll_of_change Kept (fun _ _ hkept hchange => ?_) hstart between
    exact ⟨hchange.byId_eq hkept.1, hchange.ballot?_eq hkept.2⟩
  have hentry : reached.byNonce.get? nonce = some ⟨ballot, .committed⟩ := by
    obtain ⟨entry, hget, hcommitted⟩ := Option.map_eq_some_iff.1 hstate
    obtain ⟨found, hfound, hsame⟩ := Option.map_eq_some_iff.1 hkept.2
    obtain rfl := Option.some.inj (hget.symm.trans hfound)
    obtain ⟨_, _⟩ := entry
    cases hsame
    cases hcommitted
    exact hget
  exact ⟨handleScan_of_committed hopened hkept.1 hentry sender,
    fun later => handleScan_afterAll hkept.1 hentry later⟩

/-- An engine has one ballot more than another, committed under its nonce and indexed by its id. The
    other entries, the records and everything else are the same. -/
structure AddsCommitted (engine changed : Engine) (ballot : SealedBallot) : Prop where
  byNonce : ∀ nonce, changed.byNonce.get? nonce =
    if nonce = ballot.nonce then some ⟨ballot, .committed⟩ else engine.byNonce.get? nonce
  byId : ∀ id, changed.byId.get? id =
    if id = ballot.id then some ballot.nonce else engine.byId.get? id
  others : changed = { engine with byNonce := changed.byNonce, byId := changed.byId }

theorem addsCommitted_withBallot (engine : Engine) (ballot : SealedBallot) :
    engine.AddsCommitted (engine.withBallot ballot ballot.nonce) ballot :=
  ⟨get?_withBallot, get?_byId_withBallot, rfl⟩

end Commit

/-- A ballot that is filled in as the election asks is sealed unless the random bytes run out, and
    if its fields are short enough no open engine turns it down that holds neither its id nor its
    nonce: its message has the effect of recording it, which adds one committed ballot. As long as
    it stays committed, its first scan confirms it, and every later scan finds it confirmed. -/
theorem filled_ballot_is_confirmed {election : Election} {plain : PlainBallot}
    (hfilled : plain.FillsIn election) (nonce supply : Bytes)
    (hleft : (plain.seal election.key nonce supply).1 ≠ .error .exhausted) :
    ∃ ballot witness rest,
      plain.seal election.key nonce supply = (.ok (ballot, witness), rest) ∧
      ballot.id = plain.id ∧ ballot.nonce = nonce ∧
      (ballot.Fits → ∀ (bound : Nat) (calls : List Call),
        let engine := (new election bound).afterAll calls
        engine.phase = .opened → engine.byId.get? plain.id = none →
          engine.byNonce.get? nonce = none →
          ∀ (sender : UInt32) (precinct : String), ∃ changed,
            handleCommit (.new sender precinct ballot) engine = (.ok (), changed) ∧
            record ballot nonce engine = (.ok (), changed) ∧
            engine.AddsCommitted changed ballot ∧
            ∀ between, let reached := changed.afterAll between
              reached.phase = .opened → reached.state? nonce = some .committed →
              ∀ scanner, handleScan ⟨scanner, plain.id⟩ reached =
                  (.ok true, reached.withConfirmed ballot nonce) ∧
                ∀ later, let last := (reached.withConfirmed ballot nonce).afterAll later
                  last.phase = .opened →
                    ∀ scanner, handleScan ⟨scanner, plain.id⟩ last = (.ok false, last)) := by
  obtain ⟨⟨ballot, witness⟩, rest, hseal, hproves⟩ :=
    (PlainBallot.completes_seal hfilled election.key nonce supply).exists_ok hleft
  obtain ⟨hid, rfl⟩ : ballot.id = plain.id ∧ ballot.nonce = nonce :=
    ⟨hproves.id_eq, hproves.nonce_eq⟩
  refine ⟨ballot, witness, rest, hseal, hid, rfl, fun hfits bound calls => ?_⟩
  intro engine hopened hnewId hnewNonce sender precinct
  have helection : engine.election = election := (consistent_afterAll election bound calls).2
  have hrecord : record ballot ballot.nonce engine =
      (.ok (), engine.withBallot ballot ballot.nonce) :=
    record_of_admits (admits_of_seal hfilled hseal helection hopened hnewNonce hnewId)
  refine ⟨_, ?_, hrecord, addsCommitted_withBallot engine ballot, fun between => ?_⟩
  · rw [handleCommit_new hproves.isPaired hfits, hrecord]
  · rw [← hid]
    exact handleScan_withBallot between

theorem filled_ballot_is_confirmed_small :
    smallPlain.FillsIn smallElection ∧
      (smallPlain.seal smallElection.key [7] [1, 2, 3, 4, 5, 6, 7, 8, 9]).1 ≠ .error .exhausted ∧
      ∃ ballot, ballot.Fits ∧ ∃ changed,
        handleCommit (.new 4 "precinct" ballot) (new smallElection 5) = (.ok (), changed) ∧
          handleScan ⟨6, "ballot"⟩ changed = (.ok true, changed.withConfirmed ballot [7]) := by
  obtain ⟨_, _, hsealed⟩ := smallBallot_sealed
  have hleft : (smallPlain.seal smallElection.key [7] [1, 2, 3, 4, 5, 6, 7, 8, 9]).1 ≠
      .error .exhausted := by
    rw [hsealed]
    rintro ⟨⟩
  obtain ⟨ballot, witness, rest, hseal, _, hnonce, hcommits⟩ :=
    filled_ballot_is_confirmed smallPlain_fillsIn [7] [1, 2, 3, 4, 5, 6, 7, 8, 9] hleft
  have hfits : ballot.Fits := by
    cases hsealed.symm.trans hseal
    decide +kernel
  obtain ⟨changed, hcommit, _, hadds, hscan⟩ := hcommits hfits 5 [] rfl rfl rfl 4 "precinct"
  have hopened : changed.phase = .opened := by
    rw [hadds.others]
    rfl
  have hstate : changed.state? [7] = some .committed := by
    rw [state?, hadds.byNonce, if_pos hnonce.symm, Option.map_some]
  exact ⟨smallPlain_fillsIn, hleft, ballot, hfits, changed, hcommit, (hscan [] hopened hstate 6).1⟩

end Engine

end SecretBallot
