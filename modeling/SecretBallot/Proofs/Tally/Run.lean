import Mathlib
import SecretBallot.Tally.Event
import SecretBallot.Proofs.Dict

namespace SecretBallot

namespace Engine

/-- What is asked of an engine from outside. -/
inductive Call where
  | record (ballot : SealedBallot) (nonce : Bytes)
  | confirm (nonce : Bytes)
  | challenge (nonce : Bytes)
  | commit (event : CommitEvent)
  | scan (event : ScanEvent)
  | close
  | report (key : DecryptionKey)
  | reportWithBound (key : DecryptionKey) (bound : Nat)
  | reportFromShares (shares : List DecryptionShare)

/-- What an engine hands back when it does not fail. -/
inductive Answer where
  | done
  | moved (first : Bool)
  | closed (tally : ClosedTally)
  | reported (report : Report)

def Call.run : Call → Action Engine Answer
  | .record ballot nonce => do Engine.record ballot nonce; pure .done
  | .confirm nonce => do pure (.moved (← Engine.confirm nonce))
  | .challenge nonce => do pure (.moved (← Engine.challenge nonce))
  | .commit event => do handleCommit event; pure .done
  | .scan event => do pure (.moved (← handleScan event))
  | .close => do pure (.closed (← Engine.close))
  | .report key => do pure (.reported (← Engine.report key))
  | .reportWithBound key bound => do pure (.reported (← Engine.reportWithBound key bound))
  | .reportFromShares shares => do pure (.reported (← Engine.reportFromShares shares))

/-- The engine that a call leaves behind, however it ends. -/
def after (engine : Engine) (call : Call) : Engine :=
  (call.run engine).2

/-- The engine that a run leaves behind. -/
def afterAll (engine : Engine) (calls : List Call) : Engine :=
  calls.foldl after engine

theorem afterAll_nil (engine : Engine) : engine.afterAll [] = engine :=
  rfl

theorem afterAll_cons (engine : Engine) (call : Call) (later : List Call) :
    engine.afterAll (call :: later) = (engine.after call).afterAll later :=
  rfl

theorem afterAll_append (engine : Engine) (before later : List Call) :
    engine.afterAll (before ++ later) = (engine.afterAll before).afterAll later :=
  List.foldl_append

/-- An engine with one more ballot, committed under its nonce. -/
def withBallot (engine : Engine) (ballot : SealedBallot) (nonce : Bytes) : Engine :=
  { engine with
    byNonce := engine.byNonce.insert nonce ⟨ballot, .committed⟩
    byId := engine.byId.insert ballot.id nonce }

/-- An engine whose ballot under a nonce has been confirmed and counted. -/
def withConfirmed (engine : Engine) (ballot : SealedBallot) (nonce : Bytes) : Engine :=
  (engine.move nonce .confirmed).addToRecords ballot

/-- What it takes for a ballot to be recorded. -/
structure Admits (engine : Engine) (ballot : SealedBallot) (nonce : Bytes) : Prop where
  opened : engine.phase = .opened
  own_nonce : ballot.nonce = nonce
  fits : engine.election.checkBallot ballot = .ok ()
  proved : ballot.verify engine.election.key = .ok ()
  new_nonce : engine.byNonce.get? nonce = none
  new_id : engine.byId.get? ballot.id = none

theorem requireOpen_apply (engine : Engine) : requireOpen engine =
    if engine.phase = .opened then (.ok (), engine)
    else (.error (.refused .tallyClosed), engine) := by
  rw [requireOpen, Action.get_bind_apply, Action.liftExcept_apply, ensure]
  split <;> rfl

/-- A ballot is recorded if it is admitted, and otherwise nothing changes. -/
theorem record_cases (ballot : SealedBallot) (nonce : Bytes) (engine : Engine) :
    (engine.Admits ballot nonce ∧
      record ballot nonce engine = (.ok (), engine.withBallot ballot nonce)) ∨
    (¬ engine.Admits ballot nonce ∧
      ∃ failure, record ballot nonce engine = (.error failure, engine)) := by
  change Action.Decides (engine.Admits ballot nonce) engine (engine.withBallot ballot nonce) ()
    (record ballot nonce engine)
  rw [record, Action.bind_apply, requireOpen_apply]
  by_cases hopened : engine.phase = .opened
  case neg =>
    rw [if_neg hopened]
    exact .inr ⟨fun h => hopened h.opened, _, rfl⟩
  rw [if_pos hopened]
  dsimp only
  rw [Action.get_bind_apply]
  refine .ensure_bind (·.own_nonce) fun hnonce => ?_
  refine .liftExcept_bind (fun h => ⟨(), h.fits⟩) fun _ hfits => ?_
  refine .lift_bind (fun h => ⟨(), h.proved⟩) fun _ hproved => ?_
  refine .ensure_bind (fun h => Dict.not_contains_iff.2 h.new_nonce) fun hnew => ?_
  refine .ensure_bind (fun h => Dict.not_contains_iff.2 h.new_id) fun hid => ?_
  exact .inl ⟨⟨hopened, hnonce, hfits, hproved, Dict.not_contains_iff.1 hnew,
    Dict.not_contains_iff.1 hid⟩, rfl⟩

theorem entry_apply (nonce : Bytes) (engine : Engine) : entry nonce engine =
    match engine.byNonce.get? nonce with
    | some entry => (.ok entry, engine)
    | none => (.error (.refused (.unknownBallot (.nonce nonce))), engine) := by
  rw [entry, Action.get_bind_apply]
  cases engine.byNonce.get? nonce <;> rfl

theorem confirm_apply (nonce : Bytes) (engine : Engine) : confirm nonce engine =
    if engine.phase = .opened then
      match engine.byNonce.get? nonce with
      | none => (.error (.refused (.unknownBallot (.nonce nonce))), engine)
      | some ⟨ballot, .committed⟩ => (.ok true, engine.withConfirmed ballot nonce)
      | some ⟨_, .confirmed⟩ => (.ok false, engine)
      | some ⟨ballot, .challenged⟩ =>
        (.error (.refused (.invalidTransition ballot.id .challenged .confirmed)), engine)
    else (.error (.refused .tallyClosed), engine) := by
  rw [confirm, Action.bind_apply, requireOpen_apply]
  by_cases hopened : engine.phase = .opened
  case neg => rw [if_neg hopened, if_neg hopened]
  rw [if_pos hopened, if_pos hopened]
  dsimp only
  rw [Action.bind_apply, entry_apply]
  rcases engine.byNonce.get? nonce with _ | ⟨ballot, state⟩
  · rfl
  · cases state <;> rfl

theorem challenge_apply (nonce : Bytes) (engine : Engine) : challenge nonce engine =
    if engine.phase = .opened then
      match engine.byNonce.get? nonce with
      | none => (.error (.refused (.unknownBallot (.nonce nonce))), engine)
      | some ⟨_, .committed⟩ => (.ok true, engine.move nonce .challenged)
      | some ⟨_, .challenged⟩ => (.ok false, engine)
      | some ⟨ballot, .confirmed⟩ =>
        (.error (.refused (.invalidTransition ballot.id .confirmed .challenged)), engine)
    else (.error (.refused .tallyClosed), engine) := by
  rw [challenge, Action.bind_apply, requireOpen_apply]
  by_cases hopened : engine.phase = .opened
  case neg => rw [if_neg hopened, if_neg hopened]
  rw [if_pos hopened, if_pos hopened]
  dsimp only
  rw [Action.bind_apply, entry_apply]
  rcases engine.byNonce.get? nonce with _ | ⟨ballot, state⟩
  · rfl
  · cases state <;> rfl

/-- A commit message either fails or is the recording of its ballot. -/
theorem handleCommit_cases (event : CommitEvent) (engine : Engine) :
    (∃ failure, handleCommit event engine = (.error failure, engine)) ∨
    ∃ ballot, Wire.decode event.payload = .ok ballot ∧ ballot.id = event.ballot ∧
      handleCommit event engine = record ballot event.nonce engine := by
  rw [handleCommit, Action.liftExcept_bind_apply]
  cases hdecode : (Wire.decode event.payload : Except Error SealedBallot) with
  | error error => exact .inl ⟨_, rfl⟩
  | ok ballot =>
    dsimp only
    rw [Action.ensure_bind_apply]
    by_cases hid : ballot.id = event.ballot
    · exact .inr ⟨ballot, rfl, hid, by rw [if_pos hid]⟩
    · exact .inl ⟨_, by rw [if_neg hid]⟩

theorem handleScan_apply (event : ScanEvent) (engine : Engine) : handleScan event engine =
    match engine.byId.get? event.ballot with
    | some nonce => confirm nonce engine
    | none => (.error (.refused (.unknownBallot (.id event.ballot))), engine) := by
  rw [handleScan, Action.get_bind_apply, nonce?]
  cases engine.byId.get? event.ballot <;> rfl

theorem shut_apply (engine : Engine) : shut engine =
    if engine.phase = .reported then (.error (.refused .tallyClosed), engine)
    else (.ok (), { engine with phase := .closed }) := by
  rw [shut, Action.get_bind_apply, Action.ensure_bind_apply]
  by_cases hphase : engine.phase = .reported
  · rw [if_pos hphase, if_neg (not_not.2 hphase)]
  · rw [if_neg hphase, if_pos hphase]
    rfl

theorem close_apply (engine : Engine) : close engine =
    if engine.phase = .reported then (.error (.refused .tallyClosed), engine)
    else (.ok engine.closedTally, { engine with phase := .closed }) := by
  rw [close, Action.bind_apply, shut_apply]
  by_cases hphase : engine.phase = .reported
  · rw [if_pos hphase, if_pos hphase]
  · rw [if_neg hphase, if_neg hphase]
    exact Action.get_bind_apply _ _

/-- What a report with the election key is made of. -/
def openWithKey (engine : Engine) (key : DecryptionKey) (bound : Nat) : Outcome Report := do
  ensure (key.fits engine.election.key) (.badKey .noMatch)
  let races ← engine.closedTally.openTotals fun _ _ total => total.decrypt key bound
  let challenged ← engine.closedTally.openChallenged fun _ _ _ ciphertext =>
    ciphertext.decrypt key 1
  pure ⟨races, challenged⟩

/-- What a report from shares of the decryption is made of. -/
def openFromShares (engine : Engine) (shares : List DecryptionShare) : Outcome Report := do
  let races ← engine.closedTally.openTotals fun race candidate total =>
    DecryptionShare.decrypt shares engine.election.group (.total race candidate) total engine.bound
  let challenged ← engine.closedTally.openChallenged fun ballot race candidate ciphertext =>
    DecryptionShare.decrypt shares engine.election.group (.vote ballot race candidate) ciphertext 1
  pure ⟨races, challenged⟩

/-- How an attempt to report ends. A failure leaves the engine closed, so that the attempt can be
    repeated. -/
def attempt (engine : Engine) : Outcome Report → Outcome Report × Engine
  | .ok report => (.ok report, { engine with phase := .reported })
  | .error failure => (.error failure, { engine with phase := .closed })

private theorem publish_apply (engine : Engine) (totals : Outcome (Dict String (Dict String Nat)))
    (opened : Outcome (Dict String PlainBallot)) :
    (do
      let races ← totals
      let challenged ← opened
      publish races challenged : Action Engine Report) { engine with phase := .closed } =
      engine.attempt (do
        let races ← totals
        let challenged ← opened
        pure ⟨races, challenged⟩) := by
  rw [Action.lift_bind_apply]
  rcases totals with failure | races
  · rfl
  dsimp only
  rw [Action.lift_bind_apply]
  rcases opened with failure | challenged
  · rfl
  dsimp only
  rw [publish, Action.modify_bind_apply]
  rfl

theorem reportWithBound_apply (key : DecryptionKey) (bound : Nat) (engine : Engine) :
    reportWithBound key bound engine =
      if engine.phase = .reported then (.error (.refused .tallyClosed), engine)
      else engine.attempt (engine.openWithKey key bound) := by
  rw [reportWithBound, Action.bind_apply, shut_apply]
  by_cases hphase : engine.phase = .reported
  · rw [if_pos hphase, if_pos hphase]
  rw [if_neg hphase, if_neg hphase]
  dsimp only
  rw [Action.get_bind_apply, Action.ensure_bind_apply, openWithKey, ensure]
  by_cases hfits : key.fits engine.election.key = true
  · rw [if_pos hfits, if_pos hfits]
    exact publish_apply engine _ _
  · rw [if_neg hfits, if_neg hfits]
    rfl

theorem report_apply (key : DecryptionKey) (engine : Engine) :
    report key engine = reportWithBound key engine.bound engine :=
  Action.get_bind_apply _ _

theorem reportFromShares_apply (shares : List DecryptionShare) (engine : Engine) :
    reportFromShares shares engine =
      if engine.phase = .reported then (.error (.refused .tallyClosed), engine)
      else engine.attempt (engine.openFromShares shares) := by
  rw [reportFromShares, Action.bind_apply, shut_apply]
  by_cases hphase : engine.phase = .reported
  · rw [if_pos hphase, if_pos hphase]
  rw [if_neg hphase, if_neg hphase]
  dsimp only
  rw [Action.get_bind_apply]
  exact publish_apply engine _ _

section Admitted

variable {engine : Engine} {ballot : SealedBallot} {nonce : Bytes}

theorem get?_withBallot (other : Bytes) : (engine.withBallot ballot nonce).byNonce.get? other =
    if other = nonce then some ⟨ballot, .committed⟩ else engine.byNonce.get? other :=
  Dict.get?_insert _ _ _ _

variable (hadmits : engine.Admits ballot nonce)

include hadmits

theorem record_of_admits :
    record ballot nonce engine = (.ok (), engine.withBallot ballot nonce) := by
  rcases record_cases ballot nonce engine with ⟨_, hrun⟩ | ⟨hnot, _⟩
  · exact hrun
  · exact absurd hadmits hnot

theorem after_record : engine.after (.record ballot nonce) = engine.withBallot ballot nonce := by
  rw [after, Call.run, Action.bind_pure_apply, record_of_admits hadmits]

/-- A ballot that is admitted and then confirmed is counted. -/
theorem afterAll_counted : engine.afterAll [.record ballot nonce, .confirm nonce] =
    (engine.withBallot ballot nonce).withConfirmed ballot nonce := by
  have hopened : (engine.withBallot ballot nonce).phase = .opened := hadmits.opened
  change (engine.after _).after _ = _
  rw [after_record hadmits, after, Call.run, Action.bind_pure_apply, confirm_apply,
    if_pos hopened, get?_withBallot, if_pos rfl]

/-- A ballot that is admitted and then challenged is not counted. -/
theorem afterAll_challenged : engine.afterAll [.record ballot nonce, .challenge nonce] =
    (engine.withBallot ballot nonce).move nonce .challenged := by
  have hopened : (engine.withBallot ballot nonce).phase = .opened := hadmits.opened
  change (engine.after _).after _ = _
  rw [after_record hadmits, after, Call.run, Action.bind_pure_apply, challenge_apply,
    if_pos hopened, get?_withBallot, if_pos rfl]

/-- One ballot is counted and then another one is challenged. -/
theorem afterAll_counted_challenged {other : SealedBallot} {otherNonce : Bytes}
    (hother : ((engine.withBallot ballot nonce).withConfirmed ballot nonce).Admits other
      otherNonce) :
    engine.afterAll [.record ballot nonce, .confirm nonce, .record other otherNonce,
      .challenge otherNonce] = (((engine.withBallot ballot nonce).withConfirmed ballot
        nonce).withBallot other otherNonce).move otherNonce .challenged := by
  have happend := engine.afterAll_append [.record ballot nonce, .confirm nonce]
    [.record other otherNonce, .challenge otherNonce]
  rw [afterAll_counted hadmits, afterAll_challenged hother] at happend
  exact happend

end Admitted

end Engine

end SecretBallot
