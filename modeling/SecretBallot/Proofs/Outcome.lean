import Mathlib
import SecretBallot.Failure

namespace SecretBallot

section Outcomes

variable {ε α β : Type}

@[simp] theorem ok_bind (value : α) (f : α → Except ε β) : (Except.ok value >>= f) = f value :=
  rfl

@[simp] theorem error_bind (error : ε) (f : α → Except ε β) :
    (Except.error error >>= f) = .error error :=
  rfl

theorem bind_eq_ok_iff {x : Except ε α} {f : α → Except ε β} {result : β} :
    (x >>= f) = .ok result ↔ ∃ value, x = .ok value ∧ f value = .ok result := by
  cases x <;> simp [bind, Except.bind]

theorem map_eq_ok_iff {x : Except ε α} {f : α → β} {result : β} :
    x.map f = .ok result ↔ ∃ value, x = .ok value ∧ f value = result := by
  cases x <;> simp [Except.map]

@[simp] theorem ensure_eq_ok_iff {condition : Prop} [Decidable condition] {error : Error}
    {done : Unit} : ensure condition error = .ok done ↔ condition := by
  unfold ensure
  split <;> simp_all

theorem ensure_of {condition : Prop} [Decidable condition] (error : Error) (h : condition) :
    ensure condition error = .ok () :=
  ensure_eq_ok_iff.2 h

/-- A check fails for its own reason, or what follows it fails. -/
theorem ensure_bind_eq_error_iff {condition : Prop} [Decidable condition] {reason error : Error}
    {next : Unit → Except Error β} : (ensure condition reason >>= next) = .error error ↔
      (¬ condition ∧ reason = error) ∨ (condition ∧ next () = .error error) := by
  by_cases h : condition
  · rw [ensure_of reason h, ok_bind]
    simp [h]
  · simp [ensure, h]

theorem require_of {condition : Prop} [Decidable condition] (assertion : Assertion)
    (h : condition) : require condition assertion = .ok () :=
  if_pos h

theorem entryAt_eq_ok_iff {list : List α} {index : Nat} {entry : α} :
    entryAt list index = .ok entry ↔ list[index]? = some entry := by
  rw [entryAt, List.getElem?_eq_some_iff]
  by_cases hindex : index < list.length
  · rw [dif_pos hindex, Except.ok.injEq]
    exact ⟨fun hentry => ⟨hindex, hentry⟩, fun h => h.2⟩
  · rw [dif_neg hindex]
    exact iff_of_false (by rintro ⟨⟩) fun h => hindex h.1

theorem replaceAt_eq_ok_iff {list result : List α} {index : Nat} {entry : α} :
    replaceAt list index entry = .ok result ↔
      index < list.length ∧ list.set index entry = result := by
  rw [replaceAt, require]
  by_cases hindex : index < list.length
  · rw [if_pos hindex, and_iff_right hindex]
    change Except.ok (list.set index entry) = .ok result ↔ _
    rw [Except.ok.injEq]
  · rw [if_neg hindex]
    exact iff_of_false (by rintro ⟨⟩) fun h => hindex h.1

/-- A refusal or a value stays what it is where assertions can break as well. -/
@[simp] theorem lift_ok (value : α) : (liftM (Except.ok value : Except Error α) : Outcome α) =
    .ok value :=
  rfl

@[simp] theorem lift_error (error : Error) :
    (liftM (Except.error error : Except Error α) : Outcome α) = .error (.refused error) :=
  rfl

@[simp] theorem lift_eq_ok_iff {x : Except Error α} {value : α} :
    (liftM x : Outcome α) = .ok value ↔ x = .ok value := by
  cases x <;> simp

theorem forM_eq_ok_iff {f : α → Except ε Unit} {list : List α} :
    list.forM f = .ok () ↔ ∀ element ∈ list, f element = .ok () := by
  induction list with
  | nil => simp [pure, Except.pure]
  | cons head tail ih =>
    change (f head >>= fun _ => tail.forM f) = .ok () ↔ _
    rw [bind_eq_ok_iff, List.forall_mem_cons, ← ih]
    exact ⟨fun ⟨_, hhead, htail⟩ => ⟨hhead, htail⟩, fun ⟨hhead, htail⟩ => ⟨(), hhead, htail⟩⟩

theorem mapM_eq_ok {f : α → Except ε β} {g : α → β} {list : List α}
    (hf : ∀ element ∈ list, f element = .ok (g element)) : list.mapM f = .ok (list.map g) := by
  induction list with
  | nil => rfl
  | cons head tail ih =>
    rw [List.mapM_cons, hf head List.mem_cons_self,
      ih fun element hmem => hf element (List.mem_cons_of_mem _ hmem)]
    rfl

theorem mapM_congr {f g : α → Except ε β} {list : List α}
    (hfg : ∀ element ∈ list, f element = g element) : list.mapM f = list.mapM g := by
  induction list with
  | nil => rfl
  | cons head tail ih =>
    obtain ⟨hhead, htail⟩ := List.forall_mem_cons.1 hfg
    rw [List.mapM_cons, List.mapM_cons, hhead, ih htail]

/-- Every result of a list is that of the element at its place. -/
theorem forall₂_of_mapM {f : α → Except ε β} {list : List α} {results : List β}
    (hrun : list.mapM f = .ok results) :
    List.Forall₂ (fun element result => f element = .ok result) list results := by
  induction list generalizing results with
  | nil =>
    cases hrun
    exact .nil
  | cons head tail ih =>
    rw [List.mapM_cons] at hrun
    obtain ⟨first, hfirst, hrun⟩ := bind_eq_ok_iff.1 hrun
    obtain ⟨rest, hrest, hpure⟩ := bind_eq_ok_iff.1 hrun
    cases hpure
    exact .cons hfirst (ih hrest)

/-- The results of the elements, one by one, are those of the list. -/
theorem mapM_of_forall₂ {f : α → Except ε β} {list : List α} {results : List β}
    (hf : List.Forall₂ (fun element result => f element = .ok result) list results) :
    list.mapM f = .ok results := by
  induction hf with
  | nil => rfl
  | cons hhead _ ih =>
    rw [List.mapM_cons, hhead, ih]
    rfl

/-- What every step of a fold keeps is kept by the fold. -/
theorem foldlM_preserves (good : β → Prop) {f : β → α → Except ε β} {list : List α}
    (hstep : ∀ reached element next, element ∈ list → good reached →
      f reached element = .ok next → good next)
    {start result : β} (hstart : good start) (hfold : list.foldlM f start = .ok result) :
    good result := by
  induction list generalizing start with
  | nil =>
    cases hfold
    exact hstart
  | cons head tail ih =>
    rw [List.foldlM_cons] at hfold
    obtain ⟨between, hhead, htail⟩ := bind_eq_ok_iff.1 hfold
    refine ih (fun reached element next hmem => hstep _ _ _ (List.mem_cons_of_mem _ hmem)) ?_ htail
    exact hstep start head between List.mem_cons_self hstart hhead

/-- A fold that does not fail took in every element. -/
theorem forall_mem_of_foldlM {good : α → Prop} {f : β → α → Except ε β} {list : List α}
    (hgood : ∀ reached element next, f reached element = .ok next → good element)
    {start result : β} (hfold : list.foldlM f start = .ok result) :
    ∀ element ∈ list, good element := by
  induction list generalizing start with
  | nil => exact List.forall_mem_nil _
  | cons head tail ih =>
    rw [List.foldlM_cons] at hfold
    obtain ⟨between, hhead, htail⟩ := bind_eq_ok_iff.1 hfold
    exact List.forall_mem_cons.2 ⟨hgood start head between hhead, ih htail⟩

/-- A fold that fails does so at one of its elements, having taken in all before it. -/
theorem exists_of_foldlM_eq_error {f : β → α → Except ε β} {list : List α} {start : β} {error : ε}
    (hfold : list.foldlM f start = .error error) :
    ∃ before element after reached, list = before ++ element :: after ∧
      before.foldlM f start = .ok reached ∧ f reached element = .error error := by
  induction list generalizing start with
  | nil => cases hfold
  | cons head tail ih =>
    rw [List.foldlM_cons] at hfold
    cases hhead : f start head with
    | error failure =>
      rw [hhead] at hfold
      cases hfold
      exact ⟨[], head, tail, start, rfl, rfl, hhead⟩
    | ok between =>
      rw [hhead] at hfold
      obtain ⟨before, element, after, reached, rfl, hbefore, hfails⟩ := ih hfold
      refine ⟨head :: before, element, after, reached, rfl, ?_, hfails⟩
      rw [List.foldlM_cons, hhead]
      exact hbefore

theorem map_eq_map_of_forall₂ {γ : Type} {R : α → β → Prop} {f : α → γ} {g : β → γ} {list : List α}
    {results : List β} (hR : List.Forall₂ R list results)
    (hfg : ∀ element result, R element result → f element = g result) :
    list.map f = results.map g := by
  rw [← List.forall₂_eq_eq_eq, List.forall₂_map_left_iff, List.forall₂_map_right_iff]
  exact hR.imp fun element result h => hfg element result h

/-- Lists that go with a third one go with each other. -/
theorem forall₂_comp {γ : Type} {R : α → β → Prop} {S : β → γ → Prop} {T : α → γ → Prop}
    (hT : ∀ element between result, R element between → S between result → T element result)
    {list : List α} {middle : List β} {results : List γ} (hR : List.Forall₂ R list middle)
    (hS : List.Forall₂ S middle results) : List.Forall₂ T list results := by
  induction hR generalizing results with
  | nil =>
    cases hS
    exact .nil
  | cons hhead _ ih =>
    cases hS with
    | cons hother hothers => exact .cons (hT _ _ _ hhead hother) (ih hothers)

/-- An element goes with one result in all relations between the same lists. -/
theorem exists_both_of_mem {R S : α → β → Prop} {list : List α} {results : List β}
    (hR : List.Forall₂ R list results) (hS : List.Forall₂ S list results) {element : α}
    (hmem : element ∈ list) : ∃ result ∈ results, R element result ∧ S element result := by
  induction hR with
  | nil => cases hmem
  | cons hhead _ ih =>
    obtain ⟨hother, htail⟩ := List.forall₂_cons.1 hS
    rcases List.mem_cons.1 hmem with rfl | hmem
    · exact ⟨_, List.mem_cons_self, hhead, hother⟩
    · obtain ⟨result, hresult, hboth⟩ := ih htail hmem
      exact ⟨result, List.mem_cons_of_mem _ hresult, hboth⟩

theorem exists_forall₂ {R : α → β → Prop} {list : List α}
    (hR : ∀ element ∈ list, ∃ result, R element result) :
    ∃ results, List.Forall₂ R list results := by
  induction list with
  | nil => exact ⟨[], .nil⟩
  | cons head tail ih =>
    obtain ⟨⟨first, hfirst⟩, htail⟩ := List.forall_mem_cons.1 hR
    obtain ⟨others, hothers⟩ := ih htail
    exact ⟨first :: others, .cons hfirst hothers⟩

theorem exists_of_mem_of_forall₂ {R : α → β → Prop} {list : List α} {results : List β}
    (hR : List.Forall₂ R list results) {result : β} (hmem : result ∈ results) :
    ∃ element ∈ list, R element result := by
  induction hR with
  | nil => cases hmem
  | cons hhead _ ih =>
    rcases List.mem_cons.1 hmem with rfl | hmem
    · exact ⟨_, List.mem_cons_self, hhead⟩
    · obtain ⟨element, helement, hresult⟩ := ih hmem
      exact ⟨element, List.mem_cons_of_mem _ helement, hresult⟩

/-- If the elements either map to a value or fail all in the same way, the list fails in that way
    as soon as one of its elements does. -/
theorem mapM_eq_ite {f : α → Except ε β} {g : α → β} (good : α → Prop) [DecidablePred good]
    {failure : ε} {list : List α}
    (hf : ∀ element ∈ list, f element = if good element then .ok (g element) else .error failure) :
    list.mapM f = if ∀ element ∈ list, good element then .ok (list.map g) else .error failure := by
  induction list with
  | nil => simp [pure, Except.pure]
  | cons head tail ih =>
    have htail := ih fun element hmem => hf element (List.mem_cons_of_mem _ hmem)
    rw [List.mapM_cons, hf head List.mem_cons_self, htail]
    by_cases hhead : good head
    · by_cases hrest : ∀ element ∈ tail, good element
      · have hall : ∀ element ∈ head :: tail, good element := List.forall_mem_cons.2 ⟨hhead, hrest⟩
        rw [if_pos hhead, if_pos hrest, if_pos hall]
        rfl
      · have hall : ¬ ∀ element ∈ head :: tail, good element :=
          fun h => hrest (List.forall_mem_cons.1 h).2
        rw [if_pos hhead, if_neg hrest, if_neg hall]
        rfl
    · have hall : ¬ ∀ element ∈ head :: tail, good element :=
        fun h => hhead (List.forall_mem_cons.1 h).1
      rw [if_neg hhead, if_neg hall]
      rfl

end Outcomes

namespace Stateful

variable {ε σ α β : Type}

theorem bind_apply (action : ExceptT ε (StateM σ) α) (next : α → ExceptT ε (StateM σ) β)
    (state : σ) : (action >>= next) state =
      match action state with
      | (.ok value, reached) => next value reached
      | (.error failure, reached) => (.error failure, reached) := by
  change ExceptT.bindCont next (action state).1 (action state).2 = _
  rcases action state with ⟨outcome, reached⟩
  cases outcome <;> rfl

theorem bind_of_ok {action : ExceptT ε (StateM σ) α} {state reached : σ} {value : α}
    (haction : action state = (.ok value, reached)) (next : α → ExceptT ε (StateM σ) β) :
    (action >>= next) state = next value reached := by
  rw [bind_apply, haction]

theorem bind_of_error {action : ExceptT ε (StateM σ) α} {state reached : σ} {failure : ε}
    (haction : action state = (.error failure, reached)) (next : α → ExceptT ε (StateM σ) β) :
    (action >>= next) state = (.error failure, reached) := by
  rw [bind_apply, haction]

theorem bind_eq_ok_iff {action : ExceptT ε (StateM σ) α} {next : α → ExceptT ε (StateM σ) β}
    {state reached : σ} {result : β} : (action >>= next) state = (.ok result, reached) ↔
      ∃ value between, action state = (.ok value, between) ∧
        next value between = (.ok result, reached) := by
  rw [bind_apply]
  rcases action state with ⟨outcome, between⟩
  cases outcome with
  | error failure =>
    constructor
    · intro hrun
      cases hrun
    · rintro ⟨value, middle, haction, _⟩
      cases haction
  | ok value =>
    constructor
    · intro hrun
      exact ⟨value, between, rfl, hrun⟩
    · rintro ⟨found, middle, haction, hrun⟩
      cases haction
      exact hrun

end Stateful

namespace Action

variable {σ τ α β : Type}

theorem bind_apply (action : Action σ α) (f : α → Action σ β) (state : σ) :
    (action >>= f) state =
      match action state with
      | (.ok value, state) => f value state
      | (.error failure, state) => (.error failure, state) := by
  rw [Stateful.bind_apply]
  rcases action state with ⟨outcome, reached⟩
  cases outcome <;> rfl

theorem bind_of_ok {action : Action σ α} {state reached : σ} {value : α}
    (haction : action state = (.ok value, reached)) (f : α → Action σ β) :
    (action >>= f) state = f value reached :=
  Stateful.bind_of_ok haction f

theorem bind_eq_ok_iff {action : Action σ α} {f : α → Action σ β} {state reached : σ}
    {result : β} : (action >>= f) state = (.ok result, reached) ↔
      ∃ value between, action state = (.ok value, between) ∧
        f value between = (.ok result, reached) :=
  Stateful.bind_eq_ok_iff

theorem exists_reached {action : Action σ α} {state : σ} {value : α}
    (hvalue : (action state).1 = .ok value) : ∃ reached, action state = (.ok value, reached) :=
  ⟨(action state).2, Prod.ext hvalue rfl⟩

/-- Naming the value that an action returns does not touch the state. -/
theorem bind_pure_apply (action : Action σ α) (f : α → β) (state : σ) :
    (action >>= fun value => pure (f value)) state =
      ((action state).1.map f, (action state).2) := by
  rw [bind_apply]
  rcases action state with ⟨outcome, reached⟩
  cases outcome <;> rfl

theorem pure_apply (value : α) (state : σ) : (pure value : Action σ α) state = (.ok value, state) :=
  rfl

theorem pure_eq_ok_iff {value result : α} {state reached : σ} :
    (pure value : Action σ α) state = (.ok result, reached) ↔ value = result ∧ state = reached := by
  rw [pure_apply, Prod.mk.injEq, Except.ok.injEq]

theorem get_bind_apply (f : σ → Action σ β) (state : σ) :
    ((get : Action σ σ) >>= f) state = f state state :=
  bind_of_ok rfl f

theorem set_apply (state reached : σ) :
    (set reached : Action σ PUnit) state = (.ok (), reached) :=
  rfl

theorem modify_bind_apply (change : σ → σ) (f : PUnit → Action σ β) (state : σ) :
    ((modify change : Action σ PUnit) >>= f) state = f () (change state) :=
  bind_of_ok rfl f

/-- An outcome that does not depend on the state leaves it as it is. -/
theorem lift_apply (outcome : Outcome α) (state : σ) :
    (liftM outcome : Action σ α) state = (outcome, state) :=
  rfl

theorem liftExcept_apply (x : Except Error α) (state : σ) :
    (liftM x : Action σ α) state = ((liftM x : Outcome α), state) :=
  rfl

theorem lift_apply_eq_ok_iff {outcome : Outcome α} {state reached : σ} {value : α} :
    (liftM outcome : Action σ α) state = (.ok value, reached) ↔
      outcome = .ok value ∧ state = reached := by
  rw [lift_apply, Prod.mk.injEq]

/-- Every result of a list was returned for the element at its place. -/
theorem mapM_eq_ok {f : α → Action σ β} {list : List α} {results : List β} {state reached : σ}
    (hrun : list.mapM f state = (.ok results, reached)) :
    List.Forall₂ (fun element result => ∃ before after, f element before = (.ok result, after))
      list results := by
  induction list generalizing results state reached with
  | nil =>
    rw [List.mapM_nil, pure_eq_ok_iff] at hrun
    obtain ⟨rfl, _⟩ := hrun
    exact .nil
  | cons head tail ih =>
    rw [List.mapM_cons, bind_eq_ok_iff] at hrun
    obtain ⟨first, between, hfirst, htail⟩ := hrun
    obtain ⟨rest, last, hrest, hpure⟩ := bind_eq_ok_iff.1 htail
    rw [pure_eq_ok_iff] at hpure
    obtain ⟨rfl, _⟩ := hpure
    exact .cons ⟨state, between, hfirst⟩ (ih hrest)

/-- An action that returns something for every element and leaves the state as it is. -/
theorem exists_mapM_eq {f : α → Action σ β} {R : α → β → Prop} {list : List α} {state : σ}
    (hf : ∀ element ∈ list, ∃ result, f element state = (.ok result, state) ∧ R element result) :
    ∃ results, list.mapM f state = (.ok results, state) ∧ List.Forall₂ R list results := by
  induction list with
  | nil => exact ⟨[], rfl, .nil⟩
  | cons head tail ih =>
    obtain ⟨⟨first, hfirst, hR⟩, hrest⟩ := List.forall_mem_cons.1 hf
    obtain ⟨others, hothers, hall⟩ := ih hrest
    refine ⟨first :: others, ?_, .cons hR hall⟩
    rw [List.mapM_cons, bind_of_ok hfirst, bind_of_ok hothers, pure_apply]

theorem forM_eq_ok {f : α → Action σ PUnit} {list : List α} {state : σ}
    (hf : ∀ element ∈ list, f element state = (.ok ⟨⟩, state)) :
    list.forM f state = (.ok ⟨⟩, state) := by
  induction list with
  | nil => rfl
  | cons head tail ih =>
    obtain ⟨hhead, htail⟩ := List.forall_mem_cons.1 hf
    change (f head >>= fun _ => tail.forM f) state = _
    rw [bind_of_ok hhead, ih htail]

theorem lift_bind_apply (outcome : Outcome α) (f : α → Action σ β) (state : σ) :
    ((liftM outcome : Action σ α) >>= f) state =
      match outcome with
      | .ok value => f value state
      | .error failure => (.error failure, state) := by
  rw [bind_apply, lift_apply]
  cases outcome <;> rfl

theorem liftExcept_bind_apply (x : Except Error α) (f : α → Action σ β) (state : σ) :
    ((liftM x : Action σ α) >>= f) state =
      match x with
      | .ok value => f value state
      | .error error => (.error (.refused error), state) := by
  rw [bind_apply, liftExcept_apply]
  cases x <;> rfl

theorem ensure_bind_apply (condition : Prop) [Decidable condition] (error : Error)
    (f : Unit → Action σ β) (state : σ) :
    ((liftM (ensure condition error) : Action σ Unit) >>= f) state =
      if condition then f () state else (.error (.refused error), state) := by
  rw [liftExcept_bind_apply, ensure]
  by_cases hcondition : condition
  · rw [if_pos hcondition, if_pos hcondition]
  · rw [if_neg hcondition, if_neg hcondition]

/-- A run gives its result if a condition holds, and otherwise it fails and changes nothing. -/
def Decides (condition : Prop) (state reached : σ) (value : β) (run : Outcome β × σ) : Prop :=
  (condition ∧ run = (.ok value, reached)) ∨
    (¬ condition ∧ ∃ failure, run = (.error failure, state))

section Decides

variable {condition : Prop} {state reached : σ} {value : β}

/-- Where the condition needs what is looked up, a failure to find it is the failure of the run. -/
theorem Decides.lift_bind {outcome : Outcome α} {next : α → Action σ β}
    (hneeds : condition → ∃ found, outcome = .ok found)
    (hnext : ∀ found, outcome = .ok found →
      Decides condition state reached value (next found state)) :
    Decides condition state reached value (((liftM outcome : Action σ α) >>= next) state) := by
  rw [lift_bind_apply]
  cases outcome with
  | ok found => exact hnext found rfl
  | error failure =>
    refine .inr ⟨fun hcondition => ?_, failure, rfl⟩
    obtain ⟨_, hfound⟩ := hneeds hcondition
    cases hfound

theorem Decides.liftExcept_bind {x : Except Error α} {next : α → Action σ β}
    (hneeds : condition → ∃ found, x = .ok found)
    (hnext : ∀ found, x = .ok found → Decides condition state reached value (next found state)) :
    Decides condition state reached value (((liftM x : Action σ α) >>= next) state) := by
  have hlift : ((liftM x : Action σ α) >>= next) = ((liftM (liftM x : Outcome α)) >>= next) := rfl
  rw [hlift]
  refine .lift_bind (fun hcondition => ?_) fun found hfound => hnext found (lift_eq_ok_iff.1 hfound)
  obtain ⟨found, hfound⟩ := hneeds hcondition
  exact ⟨found, lift_eq_ok_iff.2 hfound⟩

theorem Decides.ensure_bind {check : Prop} [Decidable check] {error : Error}
    {next : Unit → Action σ β} (hneeds : condition → check)
    (hnext : check → Decides condition state reached value (next () state)) :
    Decides condition state reached value
      (((liftM (ensure check error) : Action σ Unit) >>= next) state) := by
  refine .liftExcept_bind (fun hcondition => ⟨(), ensure_of error (hneeds hcondition)⟩) ?_
  exact fun _ hchecked => hnext (ensure_eq_ok_iff.1 hchecked)

end Decides

theorem zoom_apply (get : τ → σ) (set : σ → τ → τ) (action : Action σ α)
    (whole : τ) : action.zoom get set whole =
      ((action (get whole)).1, set (action (get whole)).2 whole) :=
  rfl

/-- Operations on a part follow one another there as they do on the whole. -/
theorem zoom_bind (get : τ → σ) (set : σ → τ → τ)
    (hget : ∀ part whole, get (set part whole) = part)
    (hset : ∀ part other whole, set part (set other whole) = set part whole)
    (action : Action σ α) (next : α → Action σ β) :
    (action >>= next).zoom get set =
      action.zoom get set >>= fun value => (next value).zoom get set := by
  funext whole
  rw [zoom_apply, bind_apply, bind_apply, zoom_apply]
  rcases action (get whole) with ⟨outcome, part⟩
  cases outcome with
  | error failure => rfl
  | ok value =>
    dsimp only
    rw [zoom_apply, hget, hset]

theorem zoom_eq_ok_iff {get : τ → σ} {set : σ → τ → τ} {action : Action σ α} {whole reached : τ}
    {value : α} : action.zoom get set whole = (.ok value, reached) ↔
      ∃ part, action (get whole) = (.ok value, part) ∧ set part whole = reached := by
  rw [zoom]
  rcases action (get whole) with ⟨outcome, part⟩
  constructor
  · intro hrun
    cases hrun
    exact ⟨part, rfl, rfl⟩
  · rintro ⟨found, haction, rfl⟩
    cases haction
    rfl

end Action

end SecretBallot
