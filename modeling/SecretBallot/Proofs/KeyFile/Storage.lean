import Mathlib
import SecretBallot.KeyFile.Storage
import SecretBallot.Proofs.Dict
import SecretBallot.Proofs.Outcome

namespace SecretBallot

/-- A name that leads from a directory to one of its entries. -/
structure IsPlain (name : String) : Prop where
  ne_empty : name ≠ ""
  ne_here : name ≠ "."
  ne_above : name ≠ ".."
  no_slash : '/' ∉ name.toList
  no_nul : '\x00' ∉ name.toList

/-- A file to be written, and the permission bits that it gets if it is new. -/
structure FileWrite where
  location : Location
  content : Bytes
  mode : Nat

section Paths

variable {name : String}

theorem splitPath_of_not_mem {chars : List Char} (hslash : '/' ∉ chars) :
    splitPath chars = (chars, []) := by
  induction chars with
  | nil => rfl
  | cons c rest ih =>
    obtain ⟨hne, hrest⟩ := not_or.1 (mt List.mem_cons.2 hslash)
    rw [splitPath, ih hrest]
    exact if_neg (Ne.symm hne)

theorem IsPlain.pathParts_eq (hplain : IsPlain name) : pathParts name = [name] := by
  rw [pathParts, splitPath_of_not_mem hplain.no_slash]
  exact congrArg (fun part => [part]) String.ofList_toList

theorem IsPlain.fromRoot_eq (hplain : IsPlain name) : fromRoot name = false := by
  rw [fromRoot, beq_eq_false_iff_ne]
  exact fun hhead => hplain.no_slash (List.mem_of_mem_head? hhead)

end Paths

namespace Storage

/-- The permission bits that a location has after a file was written there: those of the file that
    is there, or the given ones. -/
def modeAt (storage : Storage) (location : Location) (mode : Nat) : Nat :=
  match storage.node? location with
  | some (.file _ kept) => kept
  | _ => mode

/-- A file with new content. -/
def overwrite (storage : Storage) (file : FileWrite) : Storage :=
  storage.insert file.location (.file file.content (storage.modeAt file.location file.mode))

/-- Files written one after the other. -/
def overwriteAll (storage : Storage) (files : List FileWrite) : Storage :=
  files.foldl overwrite storage

/-- A directory stands at a location, and a name is not too long to be looked up there. -/
def Reaches (storage : Storage) (directory : Location) (name : String) : Prop :=
  storage.node? directory = some .directory ∧ name.utf8ByteSize ≤ nameLimit ∧
    directory.textSize + 1 + name.utf8ByteSize ≤ pathLimit

/-- What stands at a location is the same as before, or nothing was there and it was made a
    directory on the way to another. -/
def KeptOrMade (before after : Storage) (way location : Location) : Prop :=
  after.node? location = before.node? location ∨
    before.node? location = none ∧ after.node? location = some .directory ∧ location <+: way

variable {storage : Storage} {directory location other : Location} {name : String} {mode : Nat}

theorem find_eq_ok_iff (hplain : IsPlain name) : storage.find directory name = .ok location ↔
    storage.Reaches directory name ∧ directory ++ [name] = location := by
  have hnul : ¬ name.toList.contains '\x00' = true := by
    rw [List.contains_iff_mem]
    exact hplain.no_nul
  rw [find, hplain.fromRoot_eq, hplain.pathParts_eq, if_neg hnul, Reaches]
  by_cases hpath : pathLimit < directory.textSize + 1 + name.utf8ByteSize
  · simp [hpath]
  have hstay : ¬ (name = "" ∨ name = ".") := not_or.2 ⟨hplain.ne_empty, hplain.ne_here⟩
  simp only [Bool.false_eq_true, if_false, if_neg hpath, follow, if_neg hstay,
    if_neg hplain.ne_above, and_iff_left (Nat.not_lt.1 hpath)]
  rcases storage.node? directory with _ | _ | _
  · simp
  · simp
  · by_cases hname : nameLimit < name.utf8ByteSize
    · simp [hname]
    · simp [hname, Nat.not_lt.1 hname]

theorem node?_insert (hne : location ≠ []) (node : Node) :
    Storage.node? (storage.insert location node) other =
      if other = location then some node else storage.node? other := by
  rw [node?, node?, Dict.get?_insert]
  by_cases hroot : other = []
  · rw [if_pos hroot, if_pos hroot, if_neg (hroot ▸ hne.symm)]
  · rw [if_neg hroot, if_neg hroot]

theorem node?_overwrite {file : FileWrite} (hne : file.location ≠ []) :
    (storage.overwrite file).node? other = if other = file.location
      then some (.file file.content (storage.modeAt file.location file.mode))
      else storage.node? other :=
  node?_insert hne _

theorem modeAt_congr {before after : Storage}
    (hnode : after.node? location = before.node? location) :
    after.modeAt location mode = before.modeAt location mode := by
  rw [modeAt, modeAt, hnode]

theorem modeAt_overwrite {file : FileWrite} (hne : file.location ≠ []) :
    (storage.overwrite file).modeAt file.location mode =
      storage.modeAt file.location file.mode := by
  rw [modeAt, node?_overwrite hne, if_pos rfl]

section Run

variable {files : List FileWrite} (hne : ∀ file ∈ files, file.location ≠ [])

include hne

/-- Writing files leaves all other locations as they are. -/
theorem node?_overwriteAll_of_not_mem (storage : Storage)
    (hother : other ∉ files.map (·.location)) :
    (storage.overwriteAll files).node? other = storage.node? other := by
  induction files generalizing storage with
  | nil => rfl
  | cons file rest ih =>
    obtain ⟨hfile, hrest⟩ := List.forall_mem_cons.1 hne
    obtain ⟨hhead, htail⟩ := not_or.1 (mt List.mem_cons.2 hother)
    exact (ih hrest _ htail).trans ((node?_overwrite hfile).trans (if_neg hhead))

/-- A file that is written at a location of its own has its content afterwards, and the permission
    bits that were there. -/
theorem node?_overwriteAll_of_mem (storage : Storage) (hnodup : (files.map (·.location)).Nodup)
    {file : FileWrite} (hmem : file ∈ files) : (storage.overwriteAll files).node? file.location =
      some (.file file.content (storage.modeAt file.location file.mode)) := by
  induction files generalizing storage with
  | nil => cases hmem
  | cons head rest ih =>
    obtain ⟨hhead, hrest⟩ := List.forall_mem_cons.1 hne
    obtain ⟨hfresh, hnodup⟩ := List.nodup_cons.1 hnodup
    rcases List.mem_cons.1 hmem with rfl | hmem
    · exact (node?_overwriteAll_of_not_mem hrest _ hfresh).trans
        ((node?_overwrite hhead).trans (if_pos rfl))
    · have hother : file.location ≠ head.location := fun heq =>
        hfresh (List.mem_map.2 ⟨file, hmem, heq⟩)
      have hkept : (storage.overwrite head).modeAt file.location file.mode =
          storage.modeAt file.location file.mode :=
        modeAt_congr ((node?_overwrite hhead).trans (if_neg hother))
      exact (ih hrest _ hnodup hmem).trans (by rw [hkept])

/-- Where files are written with the same permission bits, those that were there before stay, also
    if a location is written several times. -/
theorem exists_file_overwriteAll (storage : Storage) (hmode : ∀ file ∈ files, file.mode = mode)
    (hmem : location ∈ files.map (·.location)) : ∃ content,
      (storage.overwriteAll files).node? location =
        some (.file content (storage.modeAt location mode)) := by
  induction files generalizing storage with
  | nil => cases hmem
  | cons head rest ih =>
    obtain ⟨hhead, hrest⟩ := List.forall_mem_cons.1 hne
    obtain ⟨rfl, hmode⟩ := List.forall_mem_cons.1 hmode
    -- The last writing decides the content, and each leaves the permission bits to the next.
    by_cases hlast : location ∈ rest.map (·.location)
    · obtain ⟨content, hnode⟩ := ih hrest (storage.overwrite head) hmode hlast
      refine ⟨content, hnode.trans ?_⟩
      by_cases hsame : location = head.location
      · rw [hsame, modeAt_overwrite hhead]
      · rw [modeAt_congr ((node?_overwrite hhead).trans (if_neg hsame))]
    · obtain rfl : location = head.location := (List.mem_cons.1 hmem).resolve_right hlast
      exact ⟨head.content, (node?_overwriteAll_of_not_mem hrest _ hlast).trans
        ((node?_overwrite hhead).trans (if_pos rfl))⟩

end Run

end Storage

namespace Storing

open Storage

variable {storage reached : Storage} {directory location : Location} {name : String} {mode : Nat}

/-- Opening a file empties it. -/
theorem create_eq_ok (hplain : IsPlain name)
    (hcreate : create directory name mode storage = (.ok location, reached)) :
    storage.Reaches directory name ∧ location = directory ++ [name] ∧
      reached = storage.overwrite ⟨location, [], mode⟩ := by
  rw [create, Stateful.bind_of_ok (rfl : (get : Storing Storage) storage = (.ok storage, storage))]
    at hcreate
  cases hfind : storage.find directory name with
  | error fault =>
    rw [hfind] at hcreate
    cases hcreate
  | ok found =>
    rw [hfind] at hcreate
    dsimp only at hcreate
    rw [Stateful.bind_of_ok (rfl : (get : Storing Storage) storage = (.ok storage, storage))]
      at hcreate
    obtain ⟨hreaches, rfl⟩ := (find_eq_ok_iff hplain).1 hfind
    change _ ∧ _ ∧ reached = storage.insert location (.file [] (storage.modeAt location mode))
    rw [modeAt]
    cases hnode : storage.node? (directory ++ [name]) with
    | none =>
      rw [hnode] at hcreate
      cases hcreate
      exact ⟨hreaches, rfl, by rw [hnode]⟩
    | some node =>
      rw [hnode] at hcreate
      cases node with
      | file _ kept =>
        cases hcreate
        exact ⟨hreaches, rfl, by rw [hnode]⟩
      | directory => cases hcreate

theorem fill_overwrite (storage : Storage) (location : Location) (content : Bytes) (mode : Nat) :
    fill location content (storage.overwrite ⟨location, [], mode⟩) =
      (.ok (), storage.overwrite ⟨location, content, mode⟩) := by
  refine congrArg (Prod.mk _) (Dict.ext_get? fun other => ?_)
  rw [Dict.get?_modify, overwrite, overwrite, Dict.get?_insert, Dict.get?_insert]
  by_cases hother : other = location
  · simp [hother]
  · simp [hother]

/-- Making a directory makes directories on the way to it where nothing is, and changes nothing
    else. -/
theorem makeDirectory_eq_ok {names : List String}
    (hmake : makeDirectory directory names storage = (.ok (), reached)) (location : Location) :
    storage.KeptOrMade reached (directory ++ names) location := by
  induction names generalizing directory storage with
  | nil =>
    cases hmake
    exact .inl rfl
  | cons name rest ih =>
    rw [makeDirectory,
      Stateful.bind_of_ok (rfl : (get : Storing Storage) storage = (.ok storage, storage))] at hmake
    rw [List.append_cons]
    have hne : directory ++ [name] ≠ [] := by simp
    cases hnode : storage.node? (directory ++ [name]) with
    | none =>
      -- The location that is made here is on the way, and what follows leaves it as it is.
      rw [hnode] at hmake
      rw [KeptOrMade]
      have hkept := ih hmake
      rw [KeptOrMade, node?_insert hne] at hkept
      by_cases hlocation : location = directory ++ [name]
      · rw [if_pos hlocation] at hkept
        refine .inr ⟨hlocation ▸ hnode, hkept.elim id fun hmade => ?_, ?_⟩
        · cases hmade.1
        · exact hlocation ▸ List.prefix_append _ _
      · rwa [if_neg hlocation] at hkept
    | some node =>
      rw [hnode] at hmake
      cases node with
      | file => cases hmake
      | directory => exact ih hmake

end Storing

end SecretBallot
