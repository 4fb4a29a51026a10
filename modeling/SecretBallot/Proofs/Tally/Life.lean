import Mathlib
import SecretBallot.Proofs.Tally.AnyShares
import SecretBallot.Proofs.Tally.Closing
import SecretBallot.Proofs.Tally.Commit

namespace SecretBallot

namespace Engine

/-- The state that a call asks a ballot to move to. -/
def Call.request? (ballot : SealedBallot) : Call → Option BallotState
  | .confirm nonce => if nonce = ballot.nonce then some .confirmed else none
  | .challenge nonce => if nonce = ballot.nonce then some .challenged else none
  | .scan event => if event.ballot = ballot.id then some .confirmed else none
  | _ => none

/-- What the first request for a ballot asks for that comes before the engine is closed. -/
def decision? (ballot : SealedBallot) : List Call → Option BallotState
  | [] => none
  | call :: later =>
    if call.shuts then none else (call.request? ballot).or (decision? ballot later)

/-- What an open engine answers to a request for a ballot, by what has been decided about it. -/
def verdict (ballot : SealedBallot) (target : BallotState) : Option BallotState → Outcome Answer
  | none => .ok (.moved true)
  | some decided =>
    if decided = target then .ok (.moved false)
    else .error (.refused (.invalidTransition ballot.id decided target))

/-- A ballot is recorded under its nonce and indexed by its id, as committed as long as nothing has
    been decided about it. -/
structure Holds (engine : Engine) (ballot : SealedBallot) (decision : Option BallotState) :
    Prop where
  entry : engine.byNonce.get? ballot.nonce = some ⟨ballot, decision.getD .committed⟩
  index : engine.byId.get? ballot.id = some ballot.nonce
  decided : decision ≠ some .committed

theorem holds_withBallot (engine : Engine) (ballot : SealedBallot) :
    (engine.withBallot ballot ballot.nonce).Holds ballot none where
  entry := by rw [get?_withBallot, if_pos rfl]; rfl
  index := by rw [get?_byId_withBallot, if_pos rfl]
  decided := by simp

section Requests

variable {engine : Engine} {ballot : SealedBallot} {call : Call} {target : BallotState}

/-- A request is a call to confirm or to challenge some nonce. -/
theorem run_of_target? {nonce : Bytes} (htarget : engine.target? call = some (nonce, target)) :
    (target = .confirmed ∧ call.run engine =
      ((confirm nonce engine).1.map .moved, (confirm nonce engine).2)) ∨
    (target = .challenged ∧ call.run engine =
      ((challenge nonce engine).1.map .moved, (challenge nonce engine).2)) := by
  cases call with
  | confirm other =>
    cases htarget
    exact .inl ⟨rfl, by rw [Call.run, Action.bind_pure_apply]⟩
  | challenge other =>
    cases htarget
    exact .inr ⟨rfl, by rw [Call.run, Action.bind_pure_apply]⟩
  | scan event =>
    obtain ⟨found, hfound, hsame⟩ := Option.map_eq_some_iff.1 htarget
    cases hsame
    refine .inl ⟨rfl, ?_⟩
    rw [nonce?] at hfound
    rw [Call.run, Action.bind_pure_apply, handleScan_apply, hfound]
  | _ => cases htarget

/-- A nonce that is free after a run was free before. -/
theorem get?_eq_none_of_afterAll {nonce : Bytes} {calls : List Call}
    (hfree : (engine.afterAll calls).byNonce.get? nonce = none) :
    engine.byNonce.get? nonce = none := by
  cases hentry : engine.byNonce.get? nonce with
  | none => rfl
  | some entry =>
    have hballot : engine.ballot? nonce = some entry.ballot := by
      rw [ballot?, hentry, Option.map_some]
    have hkept : (engine.afterAll calls).ballot? nonce = some entry.ballot :=
      afterAll_of_change (·.ballot? nonce = some entry.ballot)
        (fun _ _ hballot hchange => hchange.ballot?_eq hballot) hballot calls
    rw [ballot?, hfree] at hkept
    cases hkept

/-- An id that is free after a run was free before. -/
theorem get?_byId_eq_none_of_afterAll {id : String} {calls : List Call}
    (hfree : (engine.afterAll calls).byId.get? id = none) : engine.byId.get? id = none := by
  cases hid : engine.byId.get? id with
  | none => rfl
  | some nonce =>
    have hkept : (engine.afterAll calls).byId.get? id = some nonce :=
      afterAll_of_change (·.byId.get? id = some nonce)
        (fun _ _ hid hchange => hchange.byId_eq hid) hid calls
    cases hfree.symm.trans hkept

theorem answer_of_admits {nonce : Bytes} (hadmits : engine.Admits ballot nonce) :
    engine.answer (.record ballot nonce) = .ok .done := by
  rw [answer, Call.run, Action.bind_pure_apply, record_of_admits hadmits]
  rfl

/-- A call that records a ballot adds it as committed. -/
theorem recorded_of_done {nonce : Bytes} (hcall : call.ballot? = some (ballot, nonce))
    (hdone : engine.answer call = .ok .done) :
    engine.Admits ballot nonce ∧ engine.after call = engine.withBallot ballot nonce := by
  have heffect := engine.effect call
  rw [hdone] at heffect
  generalize engine.after call = changed at heffect
  cases heffect with
  | recorded other found hsame hadmits =>
    cases hcall.symm.trans hsame
    exact ⟨hadmits, rfl⟩
  | shut _ _ hshuts => cases hshuts.symm.trans (shuts_of_ballot? hcall)

/-- An engine that holds neither the nonce nor the id of a ballot refuses every request for it. -/
theorem answer_of_unknown (hnonce : engine.byNonce.get? ballot.nonce = none)
    (hid : engine.byId.get? ballot.id = none) (hrequest : call.request? ballot = some target) :
    ∃ error, engine.answer call = .error (.refused error) := by
  obtain ⟨error, hconfirm, hchallenge⟩ : ∃ error,
      (confirm ballot.nonce engine).1 = .error (.refused error) ∧
        (challenge ballot.nonce engine).1 = .error (.refused error) := by
    rw [confirm_apply, challenge_apply, hnonce]
    by_cases hopened : engine.phase = .opened
    · simp only [if_pos hopened]
      exact ⟨.unknownBallot (.nonce ballot.nonce), rfl, rfl⟩
    · simp only [if_neg hopened]
      exact ⟨.tallyClosed, rfl, rfl⟩
  cases call with
  | confirm nonce =>
    obtain rfl : nonce = ballot.nonce := by simp_all [Call.request?]
    exact ⟨error, by rw [answer, Call.run, Action.bind_pure_apply, hconfirm]; rfl⟩
  | challenge nonce =>
    obtain rfl : nonce = ballot.nonce := by simp_all [Call.request?]
    exact ⟨error, by rw [answer, Call.run, Action.bind_pure_apply, hchallenge]; rfl⟩
  | scan event =>
    have hevent : event.ballot = ballot.id := by simp_all [Call.request?]
    refine ⟨.unknownBallot (.id event.ballot), ?_⟩
    rw [answer, Call.run, Action.bind_pure_apply, handleScan_apply, hevent, hid]
    rfl
  | _ => cases hrequest

end Requests

namespace Holds

variable {engine : Engine} {ballot : SealedBallot} {decision : Option BallotState}
variable (hholds : engine.Holds ballot decision)

include hholds

theorem of_phase (phase : Phase) : ({ engine with phase } : Engine).Holds ballot decision :=
  ⟨hholds.entry, hholds.index, hholds.decided⟩

/-- Only a committed ballot moves. -/
theorem state?_eq (further : List Call) :
    (engine.afterAll further).state? ballot.nonce = engine.state? ballot.nonce ∨
      engine.state? ballot.nonce = some .committed := by
  have hstate : engine.state? ballot.nonce = some (decision.getD .committed) := by
    rw [state?, hholds.entry, Option.map_some]
  by_cases hcommitted : decision.getD .committed = .committed
  · rw [hcommitted] at hstate
    exact .inr hstate
  · let entry : Entry := ⟨ballot, decision.getD .committed⟩
    have hkept : (engine.afterAll further).byNonce.get? ballot.nonce = some entry :=
      afterAll_of_change (·.byNonce.get? ballot.nonce = some entry)
        (fun _ _ hentry hchange => hchange.entry_eq hentry hcommitted) hholds.entry further
    refine .inl ?_
    rw [state?, hkept, hstate, Option.map_some]

variable (hconsistent : engine.Consistent) {call : Call} {target : BallotState}

include hconsistent

/-- The calls that ask to move the entry of a held ballot are the requests for it. -/
theorem target?_eq_iff :
    engine.target? call = some (ballot.nonce, target) ↔ call.request? ballot = some target := by
  have hscan (id : String) : engine.nonce? id = some ballot.nonce ↔ id = ballot.id := by
    rw [nonce?]
    refine ⟨fun hid => ?_, fun hid => hid ▸ hholds.index⟩
    obtain ⟨found, hfound, rfl⟩ := (hconsistent.indexed id ballot.nonce).1 hid
    rw [ballot?, hholds.entry] at hfound
    cases hfound
    rfl
  cases call with
  | confirm nonce => simp [target?, Call.request?]
  | challenge nonce => simp [target?, Call.request?]
  | scan event => simp [target?, Call.request?, hscan]
  | _ => simp [target?, Call.request?]

/-- How a request is answered is decided by the first request. -/
theorem answer_eq (hrequest : call.request? ballot = some target) : engine.answer call =
    if engine.phase = .opened then verdict ballot target decision
    else .error (.refused .tallyClosed) := by
  rcases run_of_target? ((hholds.target?_eq_iff hconsistent).2 hrequest) with
    ⟨rfl, hrun⟩ | ⟨rfl, hrun⟩
  · rw [answer, hrun, confirm_apply, hholds.entry]
    by_cases hopened : engine.phase = .opened
    · rw [if_pos hopened, if_pos hopened]
      rcases decision with _ | (_ | _ | _) <;> first | rfl | exact absurd rfl hholds.decided
    · rw [if_neg hopened, if_neg hopened]
      rfl
  · rw [answer, hrun, challenge_apply, hholds.entry]
    by_cases hopened : engine.phase = .opened
    · rw [if_pos hopened, if_pos hopened]
      rcases decision with _ | (_ | _ | _) <;> first | rfl | exact absurd rfl hholds.decided
    · rw [if_neg hopened, if_neg hopened]
      rfl

/-- A request decides about a ballot unless another one has. -/
theorem after_of_request (hopened : engine.phase = .opened)
    (hrequest : call.request? ballot = some target) :
    (engine.after call).Holds ballot (decision.or (some target)) := by
  have hdecides (changed : Engine) (state : BallotState) (hstate : .committed ≠ state)
      (hbyNonce : changed.byNonce = (engine.move ballot.nonce state).byNonce)
      (hbyId : changed.byId = engine.byId) : changed.Holds ballot (some state) := by
    refine ⟨?_, hbyId ▸ hholds.index, fun hsame => hstate (Option.some.inj hsame).symm⟩
    rw [hbyNonce, move, Dict.get?_modify, hholds.entry, Option.map_some, if_pos rfl]
    rfl
  rcases run_of_target? ((hholds.target?_eq_iff hconsistent).2 hrequest) with
    ⟨rfl, hrun⟩ | ⟨rfl, hrun⟩
  · rw [after, hrun, confirm_apply, if_pos hopened, hholds.entry]
    rcases decision with _ | (_ | _ | _)
    · exact hdecides _ .confirmed BallotState.noConfusion rfl rfl
    · exact absurd rfl hholds.decided
    · exact hholds
    · exact hholds
  · rw [after, hrun, challenge_apply, if_pos hopened, hholds.entry]
    rcases decision with _ | (_ | _ | _)
    · exact hdecides _ .challenged BallotState.noConfusion rfl rfl
    · exact absurd rfl hholds.decided
    · exact hholds
    · exact hholds

/-- A call that is no request for a ballot leaves it as it was. -/
theorem after_of_other (hother : call.request? ballot = none) :
    (engine.after call).Holds ballot decision := by
  have hapart {nonce : Bytes} {state : BallotState}
      (htarget : engine.target? call = some (nonce, state)) : ballot.nonce ≠ nonce := by
    rintro rfl
    rw [(hholds.target?_eq_iff hconsistent).1 htarget] at hother
    cases hother
  have heffect := engine.effect call
  generalize engine.answer call = answer at heffect
  generalize engine.after call = changed at heffect ⊢
  cases heffect with
  | failed => exact hholds
  | repeated => exact hholds
  | recorded other nonce _ hadmits =>
    have hnonce : ballot.nonce ≠ nonce := by
      rintro rfl
      cases hadmits.new_nonce.symm.trans hholds.entry
    have hid : ballot.id ≠ other.id := by
      intro hid
      cases (hid ▸ hadmits.new_id).symm.trans hholds.index
    refine ⟨?_, ?_, hholds.decided⟩
    · rw [get?_withBallot, if_neg hnonce, hholds.entry]
    · rw [get?_byId_withBallot, if_neg hid, hholds.index]
  | confirmed other nonce htarget =>
    refine ⟨?_, hholds.index, hholds.decided⟩
    change (engine.move nonce .confirmed).byNonce.get? ballot.nonce = _
    rw [get?_move (hapart htarget), hholds.entry]
  | challenged other nonce htarget =>
    refine ⟨?_, hholds.index, hholds.decided⟩
    rw [get?_move (hapart htarget), hholds.entry]
  | shut answer phase => exact hholds.of_phase phase

/-- After a run that starts open the first request made before closing has decided. -/
theorem afterAll (hopened : engine.phase = .opened) (calls : List Call) :
    (engine.afterAll calls).Holds ballot (decision.or (decision? ballot calls)) := by
  induction calls generalizing engine decision with
  | nil => rwa [decision?, Option.or_none]
  | cons call later ih =>
    rw [afterAll_cons]
    have hafter : (engine.after call).Consistent :=
      (hconsistent.change (change_after engine call)).1
    rw [decision?]
    cases hshuts : call.shuts with
    | true =>
      have hclosed : (engine.after call).phase ≠ .opened := phase_after_ne_opened hshuts
      obtain ⟨first, hfirst⟩ := exists_after_eq hshuts engine
      obtain ⟨last, _, hlast⟩ := afterAll_of_closed hclosed later
      rw [if_pos rfl, Option.or_none, hlast, hfirst]
      exact hholds.of_phase last
    | false =>
      have hstill : (engine.after call).phase = .opened :=
        (phase_after_of_not_shuts hshuts).trans hopened
      rw [if_neg Bool.false_ne_true, ← Option.or_assoc]
      refine ih ?_ hafter hstill
      cases hrequest : call.request? ballot with
      | none => rw [Option.or_none]; exact hholds.after_of_other hconsistent hrequest
      | some target => exact hholds.after_of_request hconsistent hopened hrequest

end Holds

section Recordings

/-- Whether a call hands in a ballot to be recorded. -/
def Call.records : Call → Bool
  | .record _ _ | .commit _ => true
  | _ => false

/-- The calls of a run that succeeded in recording a ballot. -/
def recordings (engine : Engine) (calls : List Call) : List Call :=
  ((engine.trace calls).filter fun answered => answered.1.records && answered.2.isOk).map (·.1)

theorem recordings_cons (engine : Engine) (call : Call) (later : List Call) :
    engine.recordings (call :: later) =
      if call.records && (engine.answer call).isOk then
        call :: (engine.after call).recordings later
      else (engine.after call).recordings later := by
  rw [recordings, trace, List.filter_cons]
  split <;> rfl

/-- The recorded ballots with their nonces. -/
def recorded (engine : Engine) : List (SealedBallot × Bytes) :=
  engine.byNonce.entries.map fun entry => (entry.2.ballot, entry.1)

variable {engine : Engine} {ballot : SealedBallot} {nonce : Bytes}

theorem recorded_withBallot_perm (hnew : engine.byNonce.get? nonce = none) :
    (engine.withBallot ballot nonce).recorded.Perm (engine.recorded ++ [(ballot, nonce)]) := by
  obtain ⟨before, after, hold, hinsert⟩ := Dict.entries_insert ⟨ballot, .committed⟩ hnew
  rw [recorded, recorded, hold, withBallot, hinsert, List.map_append, List.map_cons,
    List.map_append]
  exact List.perm_middle.trans (List.perm_append_singleton _ _).symm

theorem recorded_move (hentry : engine.byNonce.get? nonce = some ⟨ballot, .committed⟩)
    (state : BallotState) : (engine.move nonce state).recorded = engine.recorded := by
  obtain ⟨before, after, hold, hmodify⟩ :=
    Dict.entries_modify hentry fun entry => { entry with state }
  rw [recorded, recorded, hold, move, hmodify]
  simp

/-- A call adds the ballot that it succeeds in recording, and otherwise none. -/
theorem recorded_after (engine : Engine) (call : Call) :
    ((call.records && (engine.answer call).isOk) = true ∧ ∃ entry, call.ballot? = some entry ∧
      (engine.after call).recorded.Perm (engine.recorded ++ [entry])) ∨
    ((call.records && (engine.answer call).isOk) = false ∧
      (engine.after call).recorded = engine.recorded) := by
  have hrecords_of_ballot? {entry : SealedBallot × Bytes} (hcall : call.ballot? = some entry) :
      call.records = true := by
    cases call <;> first | rfl | cases hcall
  have hrecords_of_target? {move : Bytes × BallotState} (hcall : engine.target? call = some move) :
      call.records = false := by
    cases call <;> first | rfl | cases hcall
  have hrecords_of_shuts (hcall : call.shuts = true) : call.records = false := by
    cases call <;> first | rfl | cases hcall
  have heffect := engine.effect call
  generalize engine.answer call = answer at heffect ⊢
  generalize engine.after call = changed at heffect ⊢
  cases heffect with
  | failed => exact .inr ⟨Bool.and_false _, rfl⟩
  | repeated move hcall => exact .inr ⟨by rw [hrecords_of_target? hcall, Bool.false_and], rfl⟩
  | recorded ballot nonce hcall hadmits =>
    exact .inl ⟨by rw [hrecords_of_ballot? hcall]; rfl, _, hcall,
      recorded_withBallot_perm hadmits.new_nonce⟩
  | confirmed ballot nonce hcall _ hentry =>
    exact .inr ⟨by rw [hrecords_of_target? hcall, Bool.false_and],
      recorded_move hentry .confirmed⟩
  | challenged ballot nonce hcall _ hentry =>
    exact .inr ⟨by rw [hrecords_of_target? hcall, Bool.false_and],
      recorded_move hentry .challenged⟩
  | shut answer phase hcall =>
    exact .inr ⟨by rw [hrecords_of_shuts hcall, Bool.false_and], rfl⟩

/-- A run adds the ballots of the calls that succeeded in recording one. -/
theorem recorded_afterAll (engine : Engine) (calls : List Call) :
    ∃ accepted, (engine.recordings calls).map Call.ballot? = accepted.map some ∧
      (engine.afterAll calls).recorded.Perm (engine.recorded ++ accepted) := by
  induction calls generalizing engine with
  | nil => exact ⟨[], rfl, by rw [List.append_nil]; rfl⟩
  | cons call later ih =>
    obtain ⟨accepted, hballots, hperm⟩ := ih (engine.after call)
    rcases recorded_after engine call with ⟨hrecords, entry, hcall, hadded⟩ | ⟨hrecords, hsame⟩
    · refine ⟨entry :: accepted, ?_, ?_⟩
      · rw [recordings_cons, if_pos hrecords, List.map_cons, hcall, hballots, List.map_cons]
      · rw [List.append_cons]
        exact hperm.trans (hadded.append_right accepted)
    · refine ⟨accepted, ?_, ?_⟩
      · rw [recordings_cons, if_neg (Bool.eq_false_iff.1 hrecords), hballots]
      · rw [hsame] at hperm
        exact hperm

/-- Every recorded ballot is in one of the three states. -/
theorem length_inState (engine : Engine) : (engine.inState .committed).length +
    (engine.inState .confirmed).length + (engine.inState .challenged).length =
      engine.recorded.length := by
  have hlength (entries : List Entry) : (entries.filter (·.state = .committed)).length +
      (entries.filter (·.state = .confirmed)).length +
      (entries.filter (·.state = .challenged)).length = entries.length := by
    induction entries with
    | nil => rfl
    | cons entry rest ih =>
      cases hstate : entry.state <;> simp [hstate] <;> omega
  simp only [inState, recorded, List.length_map]
  rw [hlength, Dict.values, List.length_map]

theorem length_challenged (hconsistent : engine.Consistent) :
    engine.challenged.length = (engine.inState .challenged).length := by
  rw [challenged, Dict.values, List.length_map,
    (Dict.entries_ofList_perm hconsistent.challenged_ids_nodup).length_eq, List.length_map]

end Recordings

/-- Once a call has recorded a ballot it stays as it is under its nonce and its id, and only a
    committed ballot moves. The first request for it that comes before the engine closes moves it;
    every other request before closing finds it there or is refused as the wrong transition, and
    after closing, as before the recording, all are refused. The counts by state add up to the calls
    that succeeded in recording a ballot, no two of which share a nonce or an id. -/
theorem life_of_a_ballot (election : Election) (bound : Nat) (before : List Call) :
    let fresh := new election bound
    let start := fresh.afterAll before
    (∀ call ballot nonce, call.ballot? = some (ballot, nonce) → start.answer call = .ok .done →
      ballot.nonce = nonce ∧
      (∀ later,
        let engine := start.afterAll (call :: later)
        engine.Holds ballot (decision? ballot later) ∧
        (∀ further, (engine.afterAll further).state? nonce = engine.state? nonce ∨
          engine.state? nonce = some .committed) ∧
        ∀ next target, next.request? ballot = some target → engine.answer next =
          if engine.phase = .opened then verdict ballot target (decision? ballot later)
          else .error (.refused .tallyClosed)) ∧
      ∀ earlier next rest target, before = earlier ++ next :: rest →
        next.request? ballot = some target →
          ∃ error, (fresh.afterAll earlier).answer next = .error (.refused error)) ∧
    start.pendingCount + start.confirmedCount + start.challenged.length =
      (fresh.recordings before).length ∧
    ∃ accepted : List (SealedBallot × Bytes),
      (fresh.recordings before).map Call.ballot? = accepted.map some ∧
      (accepted.map (·.2)).Nodup ∧ (accepted.map (·.1.id)).Nodup := by
  intro fresh start
  have hconsistent : start.Consistent := (consistent_afterAll election bound before).1
  refine ⟨fun call ballot nonce hcall hdone => ?_, ?_⟩
  · obtain ⟨hadmits, hafter⟩ := recorded_of_done hcall hdone
    obtain rfl := hadmits.own_nonce
    refine ⟨rfl, fun later => ?_, fun earlier next rest target hbefore hrequest => ?_⟩
    · have hengine : (start.after call).afterAll later =
          (start.withBallot ballot ballot.nonce).afterAll later := by rw [hafter]
      have hholds := (holds_withBallot start ballot).afterAll (hconsistent.withBallot hadmits)
        hadmits.opened later
      rw [Option.none_or, ← hengine] at hholds
      have hlater : ((start.after call).afterAll later).Consistent := by
        have hrun := (consistent_afterAll election bound (before ++ call :: later)).1
        rwa [afterAll_append] at hrun
      exact ⟨hholds, hholds.state?_eq, fun next target hrequest => hholds.answer_eq hlater hrequest⟩
    · have hsplit : start = (fresh.afterAll earlier).afterAll (next :: rest) := by
        rw [← afterAll_append, ← hbefore]
      rw [hsplit] at hadmits
      exact answer_of_unknown (get?_eq_none_of_afterAll hadmits.new_nonce)
        (get?_byId_eq_none_of_afterAll hadmits.new_id) hrequest
  · obtain ⟨accepted, hballots, hperm⟩ := recorded_afterAll fresh before
    have hperm : start.recorded.Perm accepted := hperm
    have hlength : (fresh.recordings before).length = accepted.length := by
      simpa using congrArg List.length hballots
    refine ⟨?_, accepted, hballots, (hperm.map _).nodup_iff.1 ?_, (hperm.map _).nodup_iff.1 ?_⟩
    · rw [pendingCount, confirmedCount, length_challenged hconsistent, length_inState, hlength,
        hperm.length_eq]
    · rw [recorded, List.map_map]
      exact start.byNonce.keys_nodup
    · rw [recorded, List.map_map]
      exact hconsistent.recorded_ids_nodup

/-- The first scan of a ballot confirms it, whatever is asked of it by its nonce afterwards. -/
theorem life_of_a_ballot_small :
    let fresh := new smallElection 10
    let record : Call := .record smallBallot [7]
    let scan : Call := .scan ⟨1, "ballot"⟩
    fresh.answer record = .ok .done ∧ (fresh.afterAll [record]).answer scan = .ok (.moved true) ∧
      (fresh.afterAll [record, scan]).answer (.confirm [7]) = .ok (.moved false) ∧
      (fresh.afterAll [record, scan]).answer (.challenge [7]) =
        .error (.refused (.invalidTransition "ballot" .confirmed .challenged)) := by
  intro fresh record scan
  have hdone : fresh.answer record = .ok .done := answer_of_admits (smallBallot_admitted 10)
  have hopened : (fresh.after record).phase = .opened := phase_after_of_not_shuts rfl
  have hstill : ((fresh.after record).after scan).phase = .opened :=
    (phase_after_of_not_shuts rfl).trans hopened
  have hrecorded : fresh.afterAll [record] = fresh.after record := by
    rw [afterAll_cons, afterAll_nil]
  have hscanned : fresh.afterAll [record, scan] = (fresh.after record).after scan := by
    rw [afterAll_cons, afterAll_cons, afterAll_nil]
  rw [← hrecorded] at hopened
  rw [← hscanned] at hstill
  obtain ⟨_, hlife, _⟩ :=
    (life_of_a_ballot smallElection 10 []).1 record smallBallot [7] rfl hdone
  refine ⟨hdone, ?_, ?_, ?_⟩
  · exact ((hlife []).2.2 scan .confirmed rfl).trans (if_pos hopened)
  · exact ((hlife [scan]).2.2 (.confirm [7]) .confirmed rfl).trans (if_pos hstill)
  · exact ((hlife [scan]).2.2 (.challenge [7]) .challenged rfl).trans (if_pos hstill)

end Engine

end SecretBallot
