namespace SecretBallot

/-- A finite map, listed by increasing key. -/
structure Dict (κ ν : Type) [Ord κ] where
  entries : List (κ × ν)
  ordered : entries.Pairwise fun a b => compare a.1 b.1 = .lt

namespace Dict

variable {κ ν μ : Type} [Ord κ]

@[ext] theorem ext {d e : Dict κ ν} (hentries : d.entries = e.entries) : d = e := by
  cases d
  cases e
  cases hentries
  rfl

instance [DecidableEq κ] [DecidableEq ν] : DecidableEq (Dict κ ν) := fun _ _ =>
  decidable_of_iff _ ⟨ext, congrArg entries⟩

def empty : Dict κ ν :=
  ⟨[], .nil⟩

instance : EmptyCollection (Dict κ ν) := ⟨empty⟩

instance : Inhabited (Dict κ ν) := ⟨empty⟩

def size (d : Dict κ ν) : Nat :=
  d.entries.length

def keys (d : Dict κ ν) : List κ :=
  d.entries.map (·.1)

def values (d : Dict κ ν) : List ν :=
  d.entries.map (·.2)

/-- The first value stored under a key. -/
def lookup (key : κ) : List (κ × ν) → Option ν
  | [] => none
  | (k, v) :: rest => if compare key k = .eq then some v else lookup key rest

def get? (d : Dict κ ν) (key : κ) : Option ν :=
  lookup key d.entries

def contains (d : Dict κ ν) (key : κ) : Bool :=
  (d.get? key).isSome

/-- Puts an entry in its place, replacing the entry of an equal key. -/
def place (key : κ) (value : ν) : List (κ × ν) → List (κ × ν)
  | [] => [(key, value)]
  | (k, v) :: rest =>
    match compare key k with
    | .lt => (key, value) :: (k, v) :: rest
    | .eq => (key, value) :: rest
    | .gt => (k, v) :: place key value rest

theorem mem_place {key : κ} {value : ν} {entries : List (κ × ν)} {entry : κ × ν}
    (hmem : entry ∈ place key value entries) : entry = (key, value) ∨ entry ∈ entries := by
  induction entries with
  | nil => simpa [place] using hmem
  | cons head rest ih =>
    simp only [place] at hmem
    split at hmem
    · simpa using hmem
    · simp only [List.mem_cons] at hmem ⊢
      exact hmem.imp_right .inr
    · simp only [List.mem_cons] at hmem ⊢
      rcases hmem with h | h
      · exact .inr (.inl h)
      · exact (ih h).imp_right .inr

section Insert

variable [Std.TransOrd κ]

theorem pairwise_place (key : κ) (value : ν) {entries : List (κ × ν)}
    (hordered : entries.Pairwise fun a b => compare a.1 b.1 = .lt) :
    (place key value entries).Pairwise fun a b => compare a.1 b.1 = .lt := by
  induction entries with
  | nil => simp [place]
  | cons head rest ih =>
    obtain ⟨hhead, hrest⟩ := List.pairwise_cons.1 hordered
    simp only [place]
    split
    · next hlt =>
      refine List.pairwise_cons.2 ⟨fun entry hmem => ?_, hordered⟩
      rcases List.mem_cons.1 hmem with rfl | hmem
      · exact hlt
      · exact Std.TransCmp.lt_trans hlt (hhead entry hmem)
    · next heq =>
      refine List.pairwise_cons.2 ⟨fun entry hmem => ?_, hrest⟩
      exact Std.TransCmp.lt_of_eq_of_lt heq (hhead entry hmem)
    · next hgt =>
      refine List.pairwise_cons.2 ⟨fun entry hmem => ?_, ih hrest⟩
      rcases mem_place hmem with rfl | hmem
      · exact Std.OrientedCmp.lt_of_gt hgt
      · exact hhead entry hmem

/-- Stores a value under a key in place of any earlier one. -/
def insert (d : Dict κ ν) (key : κ) (value : ν) : Dict κ ν :=
  ⟨place key value d.entries, pairwise_place key value d.ordered⟩

/-- The entries stored one after the other, a later value replacing an earlier one. -/
def ofList (entries : List (κ × ν)) : Dict κ ν :=
  entries.foldl (fun d entry => d.insert entry.1 entry.2) empty

/-- Every value replaced by an outcome of `f`, the entries taken in key order. -/
def mapM {m : Type → Type} [Monad m] (f : κ → ν → m μ) (d : Dict κ ν) : m (Dict κ μ) := do
  let entries ← d.entries.mapM fun entry => do
    let value ← f entry.1 entry.2
    pure (entry.1, value)
  pure (ofList entries)

end Insert

/-- Every value replaced, the keys kept. -/
def map (f : κ → ν → μ) (d : Dict κ ν) : Dict κ μ :=
  ⟨d.entries.map fun entry => (entry.1, f entry.1 entry.2),
    List.pairwise_map.2 d.ordered⟩

/-- The value of one key replaced; nothing changes if the key is absent. -/
def modify (d : Dict κ ν) (key : κ) (f : ν → ν) : Dict κ ν :=
  d.map fun k v => if compare key k = .eq then f v else v

@[simp] theorem keys_map (f : κ → ν → μ) (d : Dict κ ν) : (d.map f).keys = d.keys := by
  simp [map, keys, Function.comp_def]

end Dict

/-- A finite set, listed in increasing order. -/
abbrev KeySet (κ : Type) [Ord κ] := Dict κ Unit

namespace KeySet

variable {κ : Type} [Ord κ] [Std.TransOrd κ]

def ofKeys (keys : List κ) : KeySet κ :=
  Dict.ofList (keys.map fun key => (key, ()))

end KeySet

end SecretBallot
