import Mathlib
import SecretBallot.Dict
import SecretBallot.Proofs.Outcome

namespace SecretBallot

namespace Dict

variable {κ ν μ : Type} [Ord κ]

@[simp] theorem get?_empty (key : κ) : (∅ : Dict κ ν).get? key = none :=
  rfl

@[simp] theorem entries_empty : (∅ : Dict κ ν).entries = [] :=
  rfl

theorem contains_iff {d : Dict κ ν} {key : κ} :
    d.contains key = true ↔ ∃ value, d.get? key = some value := by
  rw [contains, Option.isSome_iff_exists]

theorem not_contains_iff {d : Dict κ ν} {key : κ} :
    ¬ d.contains key = true ↔ d.get? key = none := by
  simp [contains]

theorem length_keys (d : Dict κ ν) : d.keys.length = d.size :=
  List.length_map _

/-- Maps whose entries go together key by key have the same keys. -/
theorem keys_eq_of_forall₂ {R : κ × ν → κ × μ → Prop} {d : Dict κ ν} {e : Dict κ μ}
    (hentries : List.Forall₂ (fun a b => a.1 = b.1 ∧ R a b) d.entries e.entries) :
    e.keys = d.keys :=
  (map_eq_map_of_forall₂ hentries fun _ _ hentry => hentry.1).symm

@[simp] theorem keys_modify (d : Dict κ ν) (key : κ) (f : ν → ν) :
    (d.modify key f).keys = d.keys :=
  keys_map _ d

section Lawful

variable [Std.LawfulEqOrd κ]

theorem mem_of_lookup_eq_some {key : κ} {value : ν} {entries : List (κ × ν)}
    (hlookup : lookup key entries = some value) : (key, value) ∈ entries := by
  induction entries with
  | nil => cases hlookup
  | cons head rest ih =>
    obtain ⟨k, v⟩ := head
    rw [lookup] at hlookup
    by_cases heq : compare key k = .eq
    · rw [if_pos heq] at hlookup
      cases hlookup
      rw [Std.compare_eq_iff_eq.1 heq]
      exact List.mem_cons_self
    · rw [if_neg heq] at hlookup
      exact List.mem_cons_of_mem _ (ih hlookup)

theorem keys_nodup (d : Dict κ ν) : d.keys.Nodup := by
  refine List.pairwise_map.2 (d.ordered.imp ?_)
  intro a b hlt heq
  rw [heq, Std.compare_self] at hlt
  cases hlt

@[simp] theorem get?_map (f : κ → ν → μ) (d : Dict κ ν) (key : κ) :
    (d.map f).get? key = (d.get? key).map (f key) := by
  change lookup key (d.entries.map _) = (lookup key d.entries).map (f key)
  induction d.entries with
  | nil => rfl
  | cons head rest ih =>
    rw [List.map_cons, lookup, lookup, ih]
    by_cases heq : compare key head.1 = .eq
    · rw [if_pos heq, if_pos heq, Std.compare_eq_iff_eq.1 heq]
      rfl
    · rw [if_neg heq, if_neg heq]

theorem lookup_place [DecidableEq κ] (key other : κ) (value : ν) (entries : List (κ × ν)) :
    lookup other (place key value entries) =
      if other = key then some value else lookup other entries := by
  induction entries with
  | nil => simp [place, lookup]
  | cons head rest ih =>
    obtain ⟨k, v⟩ := head
    rw [place]
    cases hcompare : compare key k with
    | lt => simp [lookup]
    | eq =>
      obtain rfl := Std.compare_eq_iff_eq.1 hcompare
      by_cases hother : other = key <;> simp [lookup, hother]
    | gt =>
      have hne : key ≠ k := by
        rintro rfl
        rw [Std.compare_self] at hcompare
        cases hcompare
      simp only [lookup, Std.compare_eq_iff_eq, ih]
      by_cases hk : other = k
      · rw [if_pos hk, if_pos hk, if_neg (by rw [hk]; exact hne.symm)]
      · rw [if_neg hk, if_neg hk]

@[simp] theorem get?_modify [DecidableEq κ] (d : Dict κ ν) (key other : κ) (f : ν → ν) :
    (d.modify key f).get? other =
      (d.get? other).map fun value => if other = key then f value else value := by
  rw [modify, get?_map]
  congr 1
  funext value
  by_cases h : other = key
  · rw [if_pos h, if_pos (by rw [h, Std.compare_self])]
  · rw [if_neg h, if_neg fun heq => h (Std.compare_eq_iff_eq.1 heq).symm]

end Lawful

/-- An insertion under a new key puts one entry between the others. -/
theorem entries_insert [Std.TransOrd κ] {d : Dict κ ν} {key : κ} (value : ν)
    (hkey : d.get? key = none) : ∃ before after, d.entries = before ++ after ∧
      (d.insert key value).entries = before ++ (key, value) :: after := by
  change lookup key d.entries = none at hkey
  change ∃ before after, d.entries = before ++ after ∧ place key value d.entries = _
  generalize d.entries = entries at hkey ⊢
  induction entries with
  | nil => exact ⟨[], [], rfl, rfl⟩
  | cons head rest ih =>
    obtain ⟨k, v⟩ := head
    rw [lookup] at hkey
    rw [place]
    cases hcompare : compare key k with
    | lt => exact ⟨[], (k, v) :: rest, rfl, rfl⟩
    | eq => simp [hcompare] at hkey
    | gt =>
      rw [if_neg (by simp [hcompare])] at hkey
      obtain ⟨before, after, hentries, hplace⟩ := ih hkey
      exact ⟨(k, v) :: before, after, by rw [hentries]; rfl, by simp only [hplace]; rfl⟩

theorem values_insert_perm [Std.TransOrd κ] {d : Dict κ ν} {key : κ} (value : ν)
    (hkey : d.get? key = none) : (d.insert key value).values.Perm (value :: d.values) := by
  obtain ⟨before, after, hold, hinsert⟩ := entries_insert value hkey
  rw [values, values, hold, hinsert, List.map_append, List.map_append, List.map_cons]
  exact List.perm_middle

section Ordered

variable [Std.TransOrd κ] [Std.LawfulEqOrd κ]

theorem lookup_eq_some_of_mem {key : κ} {value : ν} {entries : List (κ × ν)}
    (hordered : entries.Pairwise fun a b => compare a.1 b.1 = .lt)
    (hmem : (key, value) ∈ entries) : lookup key entries = some value := by
  induction entries with
  | nil => cases hmem
  | cons head rest ih =>
    obtain ⟨hhead, hrest⟩ := List.pairwise_cons.1 hordered
    rw [lookup]
    rcases List.mem_cons.1 hmem with rfl | hmem
    · rw [if_pos Std.compare_self]
    · have hgt : compare key head.1 = .gt := Std.OrientedCmp.gt_of_lt (hhead _ hmem)
      rw [if_neg (by simp [hgt]), ih hrest hmem]

/-- Looking up and listing agree. -/
theorem get?_eq_some_iff {d : Dict κ ν} {key : κ} {value : ν} :
    d.get? key = some value ↔ (key, value) ∈ d.entries :=
  ⟨mem_of_lookup_eq_some, lookup_eq_some_of_mem d.ordered⟩

theorem mem_keys_iff {d : Dict κ ν} {key : κ} :
    key ∈ d.keys ↔ ∃ value, d.get? key = some value := by
  simp [keys, get?_eq_some_iff]

theorem mem_values_iff {d : Dict κ ν} {value : ν} :
    value ∈ d.values ↔ ∃ key, d.get? key = some value := by
  simp [values, get?_eq_some_iff]

/-- Maps with the same keys are related entry by entry if they are so key by key. -/
theorem forall₂_of_keys_eq {d : Dict κ ν} {e : Dict κ μ} {R : ν → μ → Prop}
    (hkeys : d.keys = e.keys)
    (hR : ∀ key value other, d.get? key = some value → e.get? key = some other → R value other) :
    List.Forall₂ (fun entry other => entry.1 = other.1 ∧ R entry.2 other.2)
      d.entries e.entries := by
  have hfirst : List.Forall₂ (fun entry other => entry.1 = other.1) d.entries e.entries := by
    rw [keys, keys, ← List.forall₂_eq_eq_eq, List.forall₂_map_left_iff,
      List.forall₂_map_right_iff] at hkeys
    exact hkeys
  rw [List.forall₂_iff_zip] at hfirst ⊢
  refine ⟨hfirst.1, fun {entry other} hmem => ?_⟩
  have hkey : entry.1 = other.1 := hfirst.2 hmem
  obtain ⟨hentry, hother⟩ := List.of_mem_zip hmem
  have hget : e.get? entry.1 = some other.2 := hkey ▸ get?_eq_some_iff.2 hother
  exact ⟨hkey, hR entry.1 _ _ (get?_eq_some_iff.2 hentry) hget⟩

/-- A map is determined by its look-ups. -/
theorem ext_get? {d e : Dict κ ν} (hget : ∀ key, d.get? key = e.get? key) : d = e := by
  have nodup (d : Dict κ ν) : d.entries.Nodup := List.Nodup.of_map _ d.keys_nodup
  have hmem : ∀ entry, entry ∈ d.entries ↔ entry ∈ e.entries := by
    intro entry
    rw [← get?_eq_some_iff, ← get?_eq_some_iff, hget]
  refine Dict.ext (((List.perm_ext_iff_of_nodup (nodup d) (nodup e)).2 hmem).eq_of_pairwise
    ?_ d.ordered e.ordered)
  intro a b _ _ hab hba
  rw [Std.OrientedCmp.gt_of_lt hba] at hab
  cases hab

/-- Keys are listed in order, so two lists of keys are equal if they have the same members. -/
theorem keys_eq_iff {d : Dict κ ν} {e : Dict κ μ} :
    d.keys = e.keys ↔ ∀ key, key ∈ d.keys ↔ key ∈ e.keys := by
  constructor
  · intro heq key
    rw [heq]
  · intro hmem
    have hd : d.keys.Pairwise fun a b => compare a b = .lt := List.pairwise_map.2 d.ordered
    have he : e.keys.Pairwise fun a b => compare a b = .lt := List.pairwise_map.2 e.ordered
    have hperm := (List.perm_ext_iff_of_nodup d.keys_nodup e.keys_nodup).2 hmem
    refine hperm.eq_of_pairwise (fun a b _ _ hab hba => ?_) hd he
    rw [Std.OrientedCmp.gt_of_lt hba] at hab
    cases hab

/-- Changing the value of a key changes one entry and no other. -/
theorem entries_modify {d : Dict κ ν} {key : κ} {value : ν} (hkey : d.get? key = some value)
    (f : ν → ν) : ∃ before after, d.entries = before ++ (key, value) :: after ∧
      (d.modify key f).entries = before ++ (key, f value) :: after := by
  obtain ⟨before, after, hentries⟩ := List.append_of_mem (get?_eq_some_iff.1 hkey)
  refine ⟨before, after, hentries, ?_⟩
  have hkeys := d.keys_nodup
  simp only [keys, hentries, List.map_append, List.map_cons, List.nodup_append,
    List.nodup_cons] at hkeys
  have unchanged (part : List (κ × ν)) (hpart : key ∉ part.map (·.1)) :
      part.map (fun entry => (entry.1, if compare key entry.1 = .eq then f entry.2 else entry.2)) =
        part := by
    refine (List.map_congr_left fun entry hmem => ?_).trans (List.map_id _)
    have hne : compare key entry.1 ≠ .eq := fun heq =>
      hpart (Std.compare_eq_iff_eq.1 heq ▸ List.mem_map_of_mem hmem)
    rw [if_neg hne, id]
  have hbefore : key ∉ before.map (·.1) := fun h => hkeys.2.2 key h key (by simp) rfl
  change d.entries.map _ = _
  rw [hentries, List.map_append, List.map_cons, unchanged before hbefore,
    unchanged after hkeys.2.1.1]
  simp only [Std.compare_self, if_true]

end Ordered

section Replace

variable [Std.TransOrd κ] {ε : Type}

theorem mapM_congr {f g : κ → ν → Except ε μ} {d : Dict κ ν}
    (hfg : ∀ entry ∈ d.entries, f entry.1 entry.2 = g entry.1 entry.2) : d.mapM f = d.mapM g := by
  have hentries : (d.entries.mapM fun entry => do
      let value ← f entry.1 entry.2
      pure (entry.1, value)) = (d.entries.mapM fun entry => do
      let value ← g entry.1 entry.2
      pure (entry.1, value)) :=
    SecretBallot.mapM_congr fun entry hentry => by rw [hfg entry hentry]
  rw [mapM, mapM, hentries]

/-- A map that is not empty fails as all of its values do. -/
theorem mapM_eq_error {f : κ → ν → Except ε μ} {failure : ε} {d : Dict κ ν}
    (hne : d.entries ≠ []) (hf : ∀ entry ∈ d.entries, f entry.1 entry.2 = .error failure) :
    d.mapM f = .error failure := by
  obtain ⟨first, rest, hentries⟩ := List.exists_cons_of_ne_nil hne
  have hfirst := hf first (hentries ▸ List.mem_cons_self)
  rw [mapM, hentries, List.mapM_cons, hfirst]
  rfl

end Replace

section Insert

variable [Std.TransOrd κ] [Std.LawfulEqOrd κ] [DecidableEq κ]

@[simp] theorem get?_insert (d : Dict κ ν) (key other : κ) (value : ν) :
    (d.insert key value).get? other = if other = key then some value else d.get? other :=
  lookup_place key other value d.entries

/-- Distinct keys are all free to be stored if the first is, and the others still are behind it. -/
theorem vacant_cons_iff {d : Dict κ ν} {key : κ} {keys : List κ} (value : ν) :
    ((key :: keys).Nodup ∧ ∀ other ∈ key :: keys, d.get? other = none) ↔
      d.get? key = none ∧ keys.Nodup ∧ ∀ other ∈ keys, (d.insert key value).get? other = none := by
  rw [List.nodup_cons, List.forall_mem_cons]
  constructor
  · rintro ⟨⟨hnew, hnodup⟩, hkey, hkeys⟩
    refine ⟨hkey, hnodup, fun other hmem => ?_⟩
    have hne : other ≠ key := fun heq => hnew (heq ▸ hmem)
    rw [get?_insert, if_neg hne]
    exact hkeys other hmem
  · rintro ⟨hkey, hnodup, hkeys⟩
    have hne : ∀ other ∈ keys, other ≠ key := by
      rintro other hmem rfl
      have hnone := hkeys other hmem
      rw [get?_insert, if_pos rfl] at hnone
      cases hnone
    refine ⟨⟨fun hmem => hne key hmem rfl, hnodup⟩, hkey, fun other hmem => ?_⟩
    have hnone := hkeys other hmem
    rwa [get?_insert, if_neg (hne other hmem)] at hnone

/-- Of the entries with a key the last one is kept. -/
theorem get?_ofList_eq_find? (entries : List (κ × ν)) (key : κ) : (ofList entries).get? key =
    (entries.reverse.find? fun entry => entry.1 == key).map (·.2) := by
  induction entries using List.reverseRecOn with
  | nil => rfl
  | append_singleton entries entry ih =>
    have hstored : ofList (entries ++ [entry]) = (ofList entries).insert entry.1 entry.2 :=
      List.foldl_append
    rw [hstored, get?_insert, ih, List.reverse_append, List.reverse_singleton, List.cons_append,
      List.nil_append, List.find?_cons]
    by_cases hkey : key = entry.1
    · rw [if_pos hkey, hkey, beq_self_eq_true]
      rfl
    · rw [if_neg hkey, beq_eq_false_iff_ne.2 (Ne.symm hkey)]

theorem mem_of_get?_ofList {entries : List (κ × ν)} {key : κ} {value : ν}
    (hget : (ofList entries).get? key = some value) : (key, value) ∈ entries := by
  rw [get?_ofList_eq_find?, Option.map_eq_some_iff] at hget
  obtain ⟨entry, hfound, rfl⟩ := hget
  have hkey : entry.1 = key := by simpa using List.find?_some hfound
  exact hkey ▸ List.mem_reverse.1 (List.mem_of_find?_eq_some hfound)

theorem exists_get?_ofList {entries : List (κ × ν)} {entry : κ × ν} (hmem : entry ∈ entries) :
    ∃ value, (ofList entries).get? entry.1 = some value := by
  have hsome : (entries.reverse.find? fun other => other.1 == entry.1).isSome = true :=
    List.find?_isSome.2 ⟨entry, List.mem_reverse.2 hmem, beq_self_eq_true _⟩
  obtain ⟨found, hfound⟩ := Option.isSome_iff_exists.1 hsome
  exact ⟨found.2, by rw [get?_ofList_eq_find?, hfound, Option.map_some]⟩

/-- Entries with distinct keys are all kept. -/
theorem get?_ofList {entries : List (κ × ν)} (hkeys : (entries.map (·.1)).Nodup) {key : κ}
    {value : ν} : (ofList entries).get? key = some value ↔ (key, value) ∈ entries := by
  refine ⟨mem_of_get?_ofList, fun hmem => ?_⟩
  obtain ⟨found, hfound⟩ := exists_get?_ofList hmem
  have hsame : (key, found) = (key, value) :=
    List.inj_on_of_nodup_map hkeys (mem_of_get?_ofList hfound) hmem rfl
  rw [hfound, (Prod.mk.inj hsame).2]

/-- Every key is kept once. -/
theorem keys_ofList_perm (entries : List (κ × ν)) :
    (ofList entries).keys.Perm (entries.map (·.1)).dedup := by
  refine (List.perm_ext_iff_of_nodup (keys_nodup _) (List.nodup_dedup _)).2 fun key => ?_
  rw [mem_keys_iff, List.mem_dedup, List.mem_map]
  constructor
  · rintro ⟨value, hget⟩
    exact ⟨(key, value), mem_of_get?_ofList hget, rfl⟩
  · rintro ⟨entry, hmem, rfl⟩
    exact exists_get?_ofList hmem

theorem size_ofList (entries : List (κ × ν)) :
    (ofList entries).size = (entries.map (·.1)).dedup.length := by
  rw [← length_keys, (keys_ofList_perm entries).length_eq]

/-- An entry is found behind what is stored later. -/
theorem get?_ofList_cons (entry : κ × ν) (rest : List (κ × ν)) (key : κ) :
    (ofList (entry :: rest)).get? key =
      ((ofList rest).get? key).or (if key = entry.1 then some entry.2 else none) := by
  rw [get?_ofList_eq_find?, get?_ofList_eq_find?, List.reverse_cons, List.find?_append,
    Option.map_or, List.find?_singleton]
  by_cases hkey : key = entry.1
  · rw [if_pos hkey, hkey, beq_self_eq_true]
    rfl
  · rw [if_neg hkey, beq_eq_false_iff_ne.2 (Ne.symm hkey)]
    rfl

/-- An entry is replaced by a later one with its key. -/
theorem ofList_cons_of_mem {entry : κ × ν} {rest : List (κ × ν)}
    (hlater : entry.1 ∈ rest.map (·.1)) : ofList (entry :: rest) = ofList rest := by
  obtain ⟨later, hmem, hkey⟩ := List.mem_map.1 hlater
  obtain ⟨value, hvalue⟩ := exists_get?_ofList hmem
  apply ext_get?
  intro key
  rw [get?_ofList_cons]
  by_cases hsame : key = entry.1
  · rw [hsame, ← hkey, hvalue, Option.some_or]
  · rw [if_neg hsame, Option.or_none]

theorem get?_ofList_eq_none {entries : List (κ × ν)} {key : κ}
    (hkey : key ∉ entries.map (·.1)) : (ofList entries).get? key = none := by
  apply Option.eq_none_iff_forall_ne_some.2
  intro value hvalue
  exact hkey (List.mem_map_of_mem (mem_of_get?_ofList hvalue))

theorem ofList_cons_of_not_mem {entry : κ × ν} {rest : List (κ × ν)}
    (hlater : entry.1 ∉ rest.map (·.1)) :
    ofList (entry :: rest) = (ofList rest).insert entry.1 entry.2 := by
  apply ext_get?
  intro key
  rw [get?_ofList_cons, get?_insert]
  by_cases hsame : key = entry.1
  · rw [if_pos hsame, if_pos hsame, hsame, get?_ofList_eq_none hlater, Option.none_or]
  · rw [if_neg hsame, if_neg hsame, Option.or_none]

/-- No entry that has any weight is replaced by a later one with its key. -/
def KeepsWeight (weight : ν → Nat) (entries : List (κ × ν)) : Prop :=
  entries.Pairwise fun entry later => entry.1 = later.1 → weight entry.2 = 0

/-- Storing entries does not gain weight, and loses none exactly if no weight is replaced. -/
theorem weight_ofList (weight : ν → Nat) (entries : List (κ × ν)) :
    ((ofList entries).values.map weight).sum ≤ (entries.map (weight ·.2)).sum ∧
      (((ofList entries).values.map weight).sum = (entries.map (weight ·.2)).sum ↔
        KeepsWeight weight entries) := by
  induction entries with
  | nil => exact ⟨le_rfl, iff_of_true rfl .nil⟩
  | cons entry rest ih =>
    obtain ⟨hle, hiff⟩ := ih
    rw [KeepsWeight] at hiff ⊢
    rw [List.map_cons, List.sum_cons, List.pairwise_cons, ← hiff]
    by_cases hlater : entry.1 ∈ rest.map (·.1)
    · have hnone : (∀ later ∈ rest, entry.1 = later.1 → weight entry.2 = 0) ↔
          weight entry.2 = 0 := by
        obtain ⟨later, hmem, hkey⟩ := List.mem_map.1 hlater
        exact ⟨fun hall => hall later hmem hkey.symm, fun hzero _ _ _ => hzero⟩
      rw [ofList_cons_of_mem hlater, hnone]
      omega
    · have hall : ∀ later ∈ rest, entry.1 = later.1 → weight entry.2 = 0 :=
        fun later hmem hkey => absurd (hkey ▸ List.mem_map_of_mem hmem) hlater
      have hperm := values_insert_perm entry.2 (get?_ofList_eq_none hlater)
      rw [ofList_cons_of_not_mem hlater, (hperm.map weight).sum_eq, List.map_cons, List.sum_cons,
        and_iff_right hall]
      omega

/-- An entry that has weight is found, if no weight is replaced. -/
theorem get?_ofList_of_keepsWeight {weight : ν → Nat} {entries : List (κ × ν)}
    (hkeeps : KeepsWeight weight entries) {entry : κ × ν} (hmem : entry ∈ entries)
    (hweight : weight entry.2 ≠ 0) : (ofList entries).get? entry.1 = some entry.2 := by
  induction entries with
  | nil => cases hmem
  | cons head rest ih =>
    obtain ⟨hhead, hrest⟩ := List.pairwise_cons.1 hkeeps
    rw [get?_ofList_cons]
    rcases List.mem_cons.1 hmem with rfl | hmem
    · have hlater : entry.1 ∉ rest.map (·.1) := by
        intro hlater
        obtain ⟨later, hlater, hkey⟩ := List.mem_map.1 hlater
        exact hweight (hhead later hlater hkey.symm)
      rw [get?_ofList_eq_none hlater, Option.none_or, if_pos rfl]
    · rw [ih hrest hmem, Option.some_or]

/-- Entries with distinct keys are listed as they are, in another order. -/
theorem entries_ofList_perm {entries : List (κ × ν)} (hkeys : (entries.map (·.1)).Nodup) :
    (ofList entries).entries.Perm entries := by
  have hentries : (ofList entries).entries.Nodup := List.Nodup.of_map _ (ofList entries).keys_nodup
  refine (List.perm_ext_iff_of_nodup hentries (List.Nodup.of_map _ hkeys)).2 fun entry => ?_
  rw [← get?_eq_some_iff, get?_ofList hkeys]

/-- Listing a map and storing the entries again gives the map. -/
@[simp] theorem ofList_entries (d : Dict κ ν) : ofList d.entries = d :=
  ext_get? fun key => Option.ext fun value => by
    rw [get?_ofList d.keys_nodup, get?_eq_some_iff]

/-- Where the values either map or fail all in the same way, the map fails in that way as soon as
    one of its values does. -/
theorem mapM_eq_ite {ε : Type} {f : κ → ν → Except ε μ} {g : κ → ν → μ} (good : κ → ν → Prop)
    [∀ key, DecidablePred (good key)] {failure : ε} {d : Dict κ ν}
    (hf : ∀ key value, d.get? key = some value →
      f key value = if good key value then .ok (g key value) else .error failure) :
    d.mapM f = if ∀ entry ∈ d.entries, good entry.1 entry.2 then .ok (d.map g)
      else .error failure := by
  have hentries : ∀ entry ∈ d.entries,
      (do let value ← f entry.1 entry.2; pure (entry.1, value)) =
        if good entry.1 entry.2 then .ok (entry.1, g entry.1 entry.2) else .error failure := by
    intro entry hmem
    rw [hf _ _ (get?_eq_some_iff.2 hmem)]
    split <;> rfl
  rw [mapM, SecretBallot.mapM_eq_ite (fun entry => good entry.1 entry.2) hentries]
  split
  · exact congrArg Except.ok (ofList_entries (d.map g))
  · rfl

/-- Entries that go with those of a map, key by key, are in order already. -/
theorem entries_ofList {R : κ × ν → κ × μ → Prop} {d : Dict κ ν} {mapped : List (κ × μ)}
    (hmapped : List.Forall₂ (fun entry result => entry.1 = result.1 ∧ R entry result)
      d.entries mapped) : (ofList mapped).entries = mapped := by
  have hkeys : d.entries.map (·.1) = mapped.map (·.1) :=
    map_eq_map_of_forall₂ hmapped fun _ _ hentry => hentry.1
  have hordered : mapped.Pairwise fun a b => compare a.1 b.1 = .lt := by
    have hd : (mapped.map (·.1)).Pairwise fun a b => compare a b = .lt :=
      hkeys ▸ List.pairwise_map.2 d.ordered
    exact List.pairwise_map.1 hd
  rw [show ofList mapped = ⟨mapped, hordered⟩ from ofList_entries ⟨mapped, hordered⟩]

/-- Every value of a replaced map is the outcome for the value at its place. -/
theorem forall₂_of_mapM {ε : Type} {f : κ → ν → Except ε μ} {d : Dict κ ν} {result : Dict κ μ}
    (hrun : d.mapM f = .ok result) :
    List.Forall₂ (fun entry mapped => entry.1 = mapped.1 ∧ f entry.1 entry.2 = .ok mapped.2)
      d.entries result.entries := by
  rw [mapM] at hrun
  obtain ⟨mapped, hmapped, hpure⟩ := bind_eq_ok_iff.1 hrun
  cases hpure
  have hentries : List.Forall₂ (fun entry mapped =>
      entry.1 = mapped.1 ∧ f entry.1 entry.2 = .ok mapped.2) d.entries mapped := by
    refine (SecretBallot.forall₂_of_mapM hmapped).imp fun entry mapped hentry => ?_
    obtain ⟨value, hvalue, hpure⟩ := bind_eq_ok_iff.1 hentry
    cases hpure
    exact ⟨rfl, hvalue⟩
  rwa [entries_ofList hentries]

/-- The outcomes for the values, key by key, make up the outcome for the map. -/
theorem mapM_of_forall₂ {ε : Type} {f : κ → ν → Except ε μ} {d : Dict κ ν} {result : Dict κ μ}
    (hf : List.Forall₂ (fun entry mapped => entry.1 = mapped.1 ∧ f entry.1 entry.2 = .ok mapped.2)
      d.entries result.entries) : d.mapM f = .ok result := by
  have hentries : (d.entries.mapM fun entry => do
      let value ← f entry.1 entry.2
      pure (entry.1, value)) = .ok result.entries := by
    refine SecretBallot.mapM_of_forall₂ (hf.imp fun entry mapped hentry => ?_)
    rw [hentry.2, hentry.1]
    rfl
  rw [mapM, hentries]
  exact congrArg Except.ok (ofList_entries result)

/-- A map whose values were replaced by an action has the same keys, and every value was returned
    for the value at its place. -/
theorem mapM_eq_ok {σ : Type} {f : κ → ν → Action σ μ} {d : Dict κ ν} {result : Dict κ μ}
    {state reached : σ} (hrun : d.mapM f state = (.ok result, reached)) :
    List.Forall₂ (fun entry mapped => entry.1 = mapped.1 ∧
      ∃ before after, f entry.1 entry.2 before = (.ok mapped.2, after))
      d.entries result.entries := by
  rw [mapM] at hrun
  obtain ⟨mapped, between, hmapped, hpure⟩ := Action.bind_eq_ok_iff.1 hrun
  rw [Action.pure_eq_ok_iff] at hpure
  obtain ⟨rfl, _⟩ := hpure
  have hentries : List.Forall₂ (fun entry mapped => entry.1 = mapped.1 ∧
      ∃ before after, f entry.1 entry.2 before = (.ok mapped.2, after)) d.entries mapped := by
    refine (Action.mapM_eq_ok hmapped).imp fun entry mapped => ?_
    rintro ⟨before, after, hentry⟩
    obtain ⟨value, middle, hvalue, hpure⟩ := Action.bind_eq_ok_iff.1 hentry
    rw [Action.pure_eq_ok_iff] at hpure
    obtain ⟨rfl, _⟩ := hpure
    exact ⟨rfl, before, middle, hvalue⟩
  rwa [entries_ofList hentries]

end Insert

end Dict

end SecretBallot
