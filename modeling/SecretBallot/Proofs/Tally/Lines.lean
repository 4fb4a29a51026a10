import Mathlib
import SecretBallot.Proofs.Tally.Report
import SecretBallot.Proofs.Tally.Closing

namespace SecretBallot

namespace Report

/-- The text that the count of a candidate of a race is found under. -/
def label (place : String × String) : String :=
  place.1 ++ "/" ++ place.2

/-- The counts one after the other, each with its race and its candidate. -/
def counted (report : Report) : List ((String × String) × Nat) :=
  report.races.entries.flatMap fun race =>
    race.2.entries.map fun count => ((race.1, count.1), count.2)

/-- What a count is printed as. -/
def line (entry : (String × String) × Nat) : String :=
  label entry.1 ++ ": " ++ toString entry.2 ++ "\n"

/-- Two places share a text: a slash ends the name of the one race and stands within that of the
    other. -/
def Clash (places : List (String × String)) : Prop :=
  ∃ race middle candidate, (race, label (middle, candidate)) ∈ places ∧
    (label (race, middle), candidate) ∈ places

/-- Every place has a line of its own, which says its count. -/
structure ListsAll (report : Report) (places : List (String × String)) : Prop where
  size : report.lines.size = places.length
  found : ∀ place ∈ places, ∃ count, report.total? place.1 place.2 = some count ∧
    report.lines.get? (label place) = some (toString count)

theorem toList_label (place : String × String) :
    (label place).toList = place.1.toList ++ '/' :: place.2.toList := by
  simp [label]

theorem label_assoc (race middle candidate : String) :
    label (race, label (middle, candidate)) = label (label (race, middle), candidate) := by
  simp only [label, String.append_assoc]

/-- Places with the same text are the same, or one and the same name stands between a slash on the
    side of the candidate in the one and on the side of the race in the other. -/
theorem eq_or_exists_of_label_eq {a b : String × String} (hlabel : label a = label b) :
    a = b ∨ (∃ middle, a.2 = label (middle, b.2) ∧ b.1 = label (a.1, middle)) ∨
      ∃ middle, b.2 = label (middle, a.2) ∧ a.1 = label (b.1, middle) := by
  -- The shorter of the two races is followed by the rest of the longer one, if by anything.
  have hbetween {a b : String × String} {between : List Char}
      (hrace : b.1.toList = a.1.toList ++ between)
      (hcandidate : '/' :: a.2.toList = between ++ '/' :: b.2.toList) :
      a = b ∨ ∃ middle, a.2 = label (middle, b.2) ∧ b.1 = label (a.1, middle) := by
    cases between with
    | nil =>
      rw [List.append_nil] at hrace
      exact .inl (Prod.ext (String.toList_inj.1 hrace.symm)
        (String.toList_inj.1 (List.cons.inj hcandidate).2))
    | cons slash middle =>
      obtain ⟨rfl, hrest⟩ := List.cons.inj hcandidate
      refine .inr ⟨String.ofList middle, String.toList_inj.1 ?_, String.toList_inj.1 ?_⟩
      · rw [toList_label, String.toList_ofList, hrest]
        rfl
      · rw [toList_label, String.toList_ofList, hrace]
  have htext := congrArg String.toList hlabel
  rw [toList_label, toList_label, List.append_eq_append_iff] at htext
  rcases htext with ⟨between, hrace, hcandidate⟩ | ⟨between, hrace, hcandidate⟩
  · exact (hbetween hrace hcandidate).imp_right .inl
  · exact (hbetween hrace hcandidate).imp Eq.symm .inr

theorem nodup_map_label_iff {places : List (String × String)} (hplaces : places.Nodup) :
    (places.map label).Nodup ↔ ¬ Clash places := by
  rw [List.nodup_map_iff_inj_on hplaces]
  constructor
  · rintro hinj ⟨race, middle, candidate, hfirst, hsecond⟩
    have hsame := hinj _ hfirst _ hsecond (label_assoc race middle candidate)
    have hlength := congrArg (fun place => place.1.toList.length) hsame
    simp only [toList_label, List.length_append, List.length_cons] at hlength
    omega
  · intro hclash a ha b hb hlabel
    rcases eq_or_exists_of_label_eq hlabel with hsame | ⟨middle, hcandidate, hrace⟩ |
      ⟨middle, hcandidate, hrace⟩
    · exact hsame
    · refine absurd ⟨a.1, middle, b.2, ?_, ?_⟩ hclash
      · rwa [← hcandidate]
      · rwa [← hrace]
    · refine absurd ⟨b.1, middle, a.2, ?_, ?_⟩ hclash
      · rwa [← hcandidate]
      · rwa [← hrace]

/-- Names of races without a slash are told apart. -/
theorem not_clash_of_no_slash {places : List (String × String)}
    (hraces : ∀ place ∈ places, '/' ∉ place.1.toList) : ¬ Clash places := by
  rintro ⟨race, middle, candidate, -, hmem⟩
  refine hraces _ hmem ?_
  rw [toList_label]
  exact List.mem_append_right _ List.mem_cons_self

variable (report : Report)

theorem lines_eq : report.lines =
    Dict.ofList (report.counted.map fun entry => (label entry.1, toString entry.2)) := by
  rw [counted, List.map_flatMap]
  simp only [List.map_map]
  rfl

/-- Of the counts with the same text the last one is said. -/
theorem get?_lines (text : String) : report.lines.get? text =
    (report.counted.reverse.find? fun entry => label entry.1 == text).map fun entry =>
      toString entry.2 := by
  rw [lines_eq, Dict.get?_ofList_eq_find?, ← List.map_reverse, List.find?_map, Option.map_map]
  rfl

theorem size_lines :
    report.lines.size = ((report.counted.map (·.1)).map label).dedup.length := by
  rw [lines_eq, Dict.size_ofList, List.map_map, List.map_map]
  rfl

variable {report}

theorem total?_eq_some_iff {race candidate : String} {count : Nat} :
    report.total? race candidate = some count ↔ ((race, candidate), count) ∈ report.counted := by
  rw [total?, counted, List.mem_flatMap]
  simp only [List.mem_map, Prod.mk.injEq]
  constructor
  · intro htotal
    obtain ⟨totals, htotals, hcount⟩ := Option.bind_eq_some_iff.1 htotal
    exact ⟨(race, totals), Dict.get?_eq_some_iff.1 htotals, (candidate, count),
      Dict.get?_eq_some_iff.1 hcount, ⟨rfl, rfl⟩, rfl⟩
  · rintro ⟨⟨name, totals⟩, htotals, ⟨other, found⟩, hcount, ⟨rfl, rfl⟩, rfl⟩
    exact Option.bind_eq_some_iff.2
      ⟨totals, Dict.get?_eq_some_iff.2 htotals, Dict.get?_eq_some_iff.2 hcount⟩

theorem map_counted (report : Report) : report.counted.map (·.1) =
    report.races.entries.flatMap fun race => race.2.keys.map (Prod.mk race.1) := by
  rw [counted, List.map_flatMap]
  simp only [Dict.keys, List.map_map]
  rfl

theorem nodup_counted (report : Report) : (report.counted.map (·.1)).Nodup := by
  rw [map_counted, List.nodup_flatMap]
  refine ⟨fun race _ => race.2.keys_nodup.map (Prod.mk_right_injective race.1), ?_⟩
  refine (List.pairwise_map.1 report.races.keys_nodup).imp fun {race other} hne => ?_
  rw [Function.onFun, List.disjoint_left]
  intro place hrace hother
  obtain ⟨_, _, rfl⟩ := List.mem_map.1 hrace
  obtain ⟨_, _, hsame⟩ := List.mem_map.1 hother
  exact hne (Prod.mk.inj hsame).1.symm

/-- What is stored is found under texts of its own. -/
theorem nodup_keys (report : Report) (hlabels : ((report.counted.map (·.1)).map label).Nodup) :
    ((report.counted.map fun entry => (label entry.1, toString entry.2)).map (·.1)).Nodup := by
  rw [List.map_map] at hlabels ⊢
  exact hlabels

section Places

variable {places : List (String × String)} (hplaces : report.counted.map (·.1) = places)

include hplaces

/-- All counts are listed as soon as there are enough lines, which is the case if no two places
    share a text. -/
theorem listsAll_iff : report.ListsAll places ↔ ¬ Clash places := by
  subst hplaces
  rw [← nodup_map_label_iff report.nodup_counted]
  constructor
  · intro hall
    have hsize := hall.size
    rw [size_lines, ← List.length_map label] at hsize
    rw [← List.dedup_eq_self]
    exact (List.dedup_sublist _).eq_of_length hsize
  · intro hlabels
    have hkeys := report.nodup_keys hlabels
    refine ⟨?_, fun place hplace => ?_⟩
    · rw [size_lines, hlabels.dedup, List.length_map]
    · obtain ⟨entry, hentry, rfl⟩ := List.mem_map.1 hplace
      refine ⟨entry.2, total?_eq_some_iff.2 hentry, ?_⟩
      rw [lines_eq, Dict.get?_ofList hkeys]
      exact List.mem_map_of_mem hentry

/-- If all counts are listed, the text of a report has one line for each. -/
theorem text_of_not_clash (hclash : ¬ Clash places) :
    ∃ listed : List ((String × String) × Nat), listed.Perm report.counted ∧
      report.text = String.join (listed.map line) := by
  subst hplaces
  have hkeys := report.nodup_keys ((nodup_map_label_iff report.nodup_counted).2 hclash)
  have hentries := Dict.entries_ofList_perm hkeys
  rw [← lines_eq] at hentries
  have hprinted : List.Forall₂ (fun printed entry => printed = (label entry.1, toString entry.2))
      (report.counted.map fun entry => (label entry.1, toString entry.2)) report.counted := by
    rw [List.forall₂_map_left_iff, List.forall₂_same]
    exact fun _ _ => rfl
  obtain ⟨listed, hlisted, hperm⟩ := List.perm_comp_forall₂ hentries hprinted
  refine ⟨listed, hperm, congrArg String.join ?_⟩
  refine map_eq_map_of_forall₂ hlisted fun printed entry hentry => ?_
  rw [hentry]
  rfl

end Places

end Report

/-- Every candidate of every race. -/
def Election.places (election : Election) : List (String × String) :=
  election.races.entries.flatMap fun race => race.2.candidates.keys.map (Prod.mk race.1)

namespace Engine

variable {engine : Engine}

/-- There is a total for every candidate of every race. -/
theorem Consistent.forall₂_totals (hconsistent : engine.Consistent) : List.Forall₂
    (fun race totals => race.1 = totals.1 ∧ race.2.candidates.keys = totals.2.keys)
    engine.election.races.entries engine.closedTally.totals.entries := by
  refine Dict.forall₂_of_keys_eq
    (R := fun (race : Race) (totals : Dict String Ciphertext) => race.candidates.keys = totals.keys)
    ?_ ?_
  · rw [closedTally, Dict.keys_map, hconsistent.races]
  · intro name race totals hrace htotals
    obtain ⟨record, hrecord, hcounts⟩ := hconsistent.counted name race hrace
    rw [closedTally, Dict.get?_map, hrecord, Option.map_some, Option.some.injEq] at htotals
    rw [← htotals, hcounts.candidates]

/-- Opening the totals gives a count for every candidate of every race. -/
theorem Consistent.places_of_openTotals (hconsistent : engine.Consistent) {opener : VoteOpener}
    {report : Report} (hopen : engine.closedTally.openTotals opener = .ok report.races) :
    report.counted.map (·.1) = engine.election.places := by
  have hopened : List.Forall₂
      (fun totals counts => totals.2.keys.map (Prod.mk totals.1) =
        counts.2.keys.map (Prod.mk counts.1))
      engine.closedTally.totals.entries report.races.entries := by
    refine (Dict.forall₂_of_mapM hopen).imp fun totals counts hcounts => ?_
    obtain ⟨hname, hcounts⟩ := hcounts
    rw [hname, Dict.keys_eq_of_forall₂ (Dict.forall₂_of_mapM hcounts)]
  have hplaces : engine.election.races.entries.map (fun race =>
      race.2.candidates.keys.map (Prod.mk race.1)) =
      engine.closedTally.totals.entries.map fun totals => totals.2.keys.map (Prod.mk totals.1) :=
    map_eq_map_of_forall₂ hconsistent.forall₂_totals fun race totals hrace => by
      rw [hrace.1, hrace.2]
  rw [Report.map_counted, Election.places, List.flatMap_def, List.flatMap_def, hplaces,
    map_eq_map_of_forall₂ hopened fun _ _ hcounts => hcounts]

theorem openTotals_of_openWithKey {key : DecryptionKey} {bound : Nat} {report : Report}
    (hreport : engine.openWithKey key bound = .ok report) :
    ∃ opener, engine.closedTally.openTotals opener = .ok report.races := by
  obtain ⟨_, _, hreport⟩ := bind_eq_ok_iff.1 hreport
  obtain ⟨races, hraces, hreport⟩ := bind_eq_ok_iff.1 hreport
  obtain ⟨challenged, _, hpure⟩ := bind_eq_ok_iff.1 hreport
  cases hpure
  exact ⟨_, hraces⟩

theorem openTotals_of_openFromShares {shares : List DecryptionShare} {report : Report}
    (hreport : engine.openFromShares shares = .ok report) :
    ∃ opener, engine.closedTally.openTotals opener = .ok report.races := by
  obtain ⟨races, hraces, hreport⟩ := bind_eq_ok_iff.1 hreport
  obtain ⟨challenged, _, hpure⟩ := bind_eq_ok_iff.1 hreport
  cases hpure
  exact ⟨_, hraces⟩

/-- A call for a report hands out what was opened, if it was. -/
theorem exists_opened {call : Call} (hreport : call.isReport = true) (engine : Engine) :
    ∃ outcome : Outcome Report,
      (∀ report, outcome = .ok report →
        ∃ opener, engine.closedTally.openTotals opener = .ok report.races) ∧
      call.run engine =
        if engine.phase = .reported then (.error (.refused .tallyClosed), engine)
        else ((engine.attempt outcome).1.map .reported, (engine.attempt outcome).2) := by
  cases call with
  | report key =>
    exact ⟨engine.openWithKey key engine.bound, fun _ => openTotals_of_openWithKey,
      run_of_attempt ((report_apply key engine).trans (reportWithBound_apply key _ engine))⟩
  | reportWithBound key bound =>
    exact ⟨engine.openWithKey key bound, fun _ => openTotals_of_openWithKey,
      run_of_attempt (reportWithBound_apply key bound engine)⟩
  | reportFromShares shares =>
    exact ⟨engine.openFromShares shares, fun _ => openTotals_of_openFromShares,
      run_of_attempt (reportFromShares_apply shares engine)⟩
  | _ => cases hreport

theorem eq_reported_of_reportOf? {answer : Outcome Answer} {report : Report}
    (hreport : reportOf? answer = some report) : answer = .ok (.reported report) := by
  rcases answer with failure | (_ | _ | _ | found)
  · cases hreport
  · cases hreport
  · cases hreport
  · cases hreport
  · cases hreport
    rfl

theorem openTotals_of_reported {call : Call} {report : Report}
    (hanswer : engine.answer call = .ok (.reported report)) :
    ∃ opener, engine.closedTally.openTotals opener = .ok report.races := by
  by_cases hshuts : call.shuts = true
  case neg =>
    have hnone : reportOf? (engine.answer call) = none :=
      reportOf?_of_not_shuts (Bool.eq_false_iff.2 hshuts)
    rw [hanswer] at hnone
    cases hnone
  rw [answer] at hanswer
  rcases eq_close_or_isReport hshuts with rfl | hreport
  · rw [run_close] at hanswer
    split at hanswer <;> cases hanswer
  · obtain ⟨outcome, hopened, hrun⟩ := exists_opened hreport engine
    rw [hrun] at hanswer
    split at hanswer
    · cases hanswer
    · cases outcome with
      | error failure => cases hanswer
      | ok found =>
        cases hanswer
        exact hopened _ rfl

/-- Every report of an election counts all its candidates. It lists as many of them as there are
    different texts, and under a text the last of the counts that share it. So no count is lost
    exactly if no slash can be read in two ways, and then each has its line in the text. -/
theorem report_lines_of_every_run (election : Election) (bound : Nat) (calls : List Call)
    {call : Call} {report : Report}
    (hanswer : ((new election bound).afterAll calls).answer call = .ok (.reported report)) :
    report.counted.map (·.1) = election.places ∧
    report.lines.size = (election.places.map Report.label).dedup.length ∧
    (∀ text, report.lines.get? text =
      (report.counted.reverse.find? fun entry => Report.label entry.1 == text).map fun entry =>
        toString entry.2) ∧
    (report.ListsAll election.places ↔ ¬ Report.Clash election.places) ∧
    (¬ Report.Clash election.places →
      ∃ listed : List ((String × String) × Nat), listed.Perm report.counted ∧
        report.text = String.join (listed.map Report.line)) := by
  obtain ⟨hconsistent, helection⟩ := consistent_afterAll election bound calls
  obtain ⟨opener, hopen⟩ := openTotals_of_reported hanswer
  have hplaces := hconsistent.places_of_openTotals hopen
  rw [helection] at hplaces
  refine ⟨hplaces, ?_, report.get?_lines, Report.listsAll_iff hplaces,
    Report.text_of_not_clash hplaces⟩
  rw [report.size_lines, hplaces]

/-- One of the two candidates has a vote. -/
theorem report_lines_of_every_run_small :
    let engine := (new smallElection 5).afterAll smallCalls
    let report : Report := ⟨Dict.ofList [("mayor", Dict.ofList [("ann", 1), ("ben", 0)])],
      Dict.ofList [("test", testPlain)]⟩
    engine.answer (.report ⟨Group.small, 4⟩) = .ok (.reported report) ∧
      report.ListsAll [("mayor", "ann"), ("mayor", "ben")] ∧
      report.lines.get? "mayor/ann" = some "1" ∧ report.lines.get? "mayor/ben" = some "0" := by
  intro engine report
  have hanswer : engine.answer (.report ⟨Group.small, 4⟩) = .ok (.reported report) := by
    have hreport : (Engine.report ⟨Group.small, 4⟩ (smallEngine 5)).1 = .ok report := by
      decide +kernel
    rw [show engine = smallEngine 5 from afterAll_smallCalls 5, answer, Call.run,
      Action.bind_pure_apply, hreport]
    rfl
  obtain ⟨_, _, hget, hlists, _⟩ := report_lines_of_every_run smallElection 5 smallCalls hanswer
  refine ⟨hanswer, hlists.2 (Report.not_clash_of_no_slash ?_), (hget _).trans ?_, (hget _).trans ?_⟩
  · decide +kernel
  · decide +kernel
  · decide +kernel

/-- Two races of one candidate each, whose names are parted at different slashes. -/
def slashedRaces : List (String × Race) :=
  [("a", ⟨1, KeySet.ofKeys ["b/c"]⟩), ("a/b", ⟨0, KeySet.ofKeys ["c"]⟩)]

/-- A ballot for the one candidate, and not for the other. -/
def slashedBallot : SealedBallot :=
  ⟨"ballot", [7], [
    ⟨"a", 1, Dict.ofList [("b/c", ⟨⟨4, 12⟩, ⟨[3, 0], [4, 2]⟩⟩)], ⟨9, 3⟩⟩,
    ⟨"a/b", 0, Dict.ofList [("c", ⟨⟨2, 16⟩, ⟨[5, 8], [4, 9]⟩⟩)], ⟨10, 3⟩⟩]⟩

theorem slashedRaces_valid : ∀ race ∈ (Dict.ofList slashedRaces).entries, race.2.IsValid := by
  simp only [Race.IsValid]
  decide +kernel

/-- An election may have such races. The one vote that it counts is not among its lines. -/
theorem report_loses_a_count : ∃ election report,
    Election.new smallElection.key slashedRaces = .ok election ∧
    ((new election 5).afterAll [.record slashedBallot [7], .confirm [7]]).answer
      (.report ⟨Group.small, 4⟩) = .ok (.reported report) ∧
    report.total? "a" "b/c" = some 1 ∧ report.total? "a/b" "c" = some 0 ∧
    report.lines.entries = [("a/b/c", "0")] ∧ ¬ report.ListsAll election.places := by
  let election : Election := ⟨smallElection.key, Dict.ofList slashedRaces, slashedRaces_valid⟩
  let engine := (new election 5).afterAll [.record slashedBallot [7], .confirm [7]]
  let report : Report :=
    ⟨Dict.ofList [("a", Dict.ofList [("b/c", 1)]), ("a/b", Dict.ofList [("c", 0)])], ∅⟩
  have hreport : reportOf? (engine.answer (.report ⟨Group.small, 4⟩)) = some report := by
    decide +kernel
  have hlines : report.lines.entries = [("a/b/c", "0")] := by decide +kernel
  refine ⟨election, report, rfl, eq_reported_of_reportOf? hreport, by decide +kernel,
    by decide +kernel, hlines, fun hall => ?_⟩
  have hplaces : election.places.length = 2 := by decide +kernel
  have hsize := hall.size
  rw [Dict.size, hlines, hplaces] at hsize
  cases hsize

end Engine

end SecretBallot
