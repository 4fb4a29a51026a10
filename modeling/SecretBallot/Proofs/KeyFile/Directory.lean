import Mathlib
import SecretBallot.KeyFile.Directory
import SecretBallot.Proofs.KeyFile.Frame
import SecretBallot.Proofs.KeyFile.Storage

namespace SecretBallot

open Storage

namespace KeyFile

section Names

variable {index other : UInt64} {count : Nat}

theorem isPlain_publicName : IsPlain publicName :=
  ⟨by decide, by decide, by decide, by decide, by decide⟩

theorem privateName_of_ne (hcount : count ≠ 1) (index : UInt64) :
    privateName index count = "private-" ++ index.toNat.repr ++ ".key" :=
  if_neg hcount

/-- The name of a private file is made of the letters of one text and of digits. -/
theorem mem_privateName {c : Char} (hmem : c ∈ (privateName index count).toList) :
    c ∈ "private-.key".toList ∨ c.isDigit = true := by
  by_cases hcount : count = 1
  · rw [privateName, if_pos hcount] at hmem
    exact .inl (List.Sublist.subset (by decide) hmem)
  · rw [privateName_of_ne hcount, String.toList_append, String.toList_append, Nat.toList_repr]
      at hmem
    rcases List.mem_append.1 hmem with hmem | hmem
    · rcases List.mem_append.1 hmem with hmem | hmem
      · exact .inl (List.Sublist.subset (by decide) hmem)
      · exact .inr (Nat.isDigit_of_mem_toDigits (by decide) (by decide) hmem)
    · exact .inl (List.Sublist.subset (by decide) hmem)

theorem mem_toList_privateName (index : UInt64) (count : Nat) :
    'p' ∈ (privateName index count).toList := by
  by_cases hcount : count = 1
  · rw [privateName, if_pos hcount]
    decide
  · rw [privateName_of_ne hcount, String.toList_append, String.toList_append]
    exact List.mem_append_left _ (List.mem_append_left _ (by decide))

theorem isPlain_privateName (index : UInt64) (count : Nat) : IsPlain (privateName index count) := by
  have hmem := mem_toList_privateName index count
  refine ⟨fun heq => ?_, fun heq => ?_, fun heq => ?_, fun hslash => ?_, fun hnul => ?_⟩
  · exact absurd (heq ▸ hmem) (by decide)
  · exact absurd (heq ▸ hmem) (by decide)
  · exact absurd (heq ▸ hmem) (by decide)
  · exact absurd (mem_privateName hslash) (by decide)
  · exact absurd (mem_privateName hnul) (by decide)

theorem publicName_ne_privateName (index : UInt64) (count : Nat) :
    publicName ≠ privateName index count := by
  intro heq
  have hmem : 'u' ∈ (privateName index count).toList := heq ▸ by decide
  exact absurd (mem_privateName hmem) (by decide)

theorem privateName_inj (hcount : count ≠ 1) :
    privateName index count = privateName other count ↔ index = other := by
  refine ⟨fun heq => ?_, fun heq => heq ▸ rfl⟩
  rw [privateName_of_ne hcount, privateName_of_ne hcount, String.append_left_inj,
    String.append_right_inj, Nat.repr_inj] at heq
  exact UInt64.toNat_inj.1 heq

end Names

/-- The names of the files of an election, in the order in which they are written. -/
def fileNames (shares : List PrivateShare) : List String :=
  publicName :: shares.map fun share => privateName share.index shares.length

theorem nodup_fileNames {shares : List PrivateShare} (hindices : (shares.map (·.index)).Nodup) :
    (fileNames shares).Nodup := by
  refine List.nodup_cons.2 ⟨fun hmem => ?_, ?_⟩
  · obtain ⟨share, _, hname⟩ := List.mem_map.1 hmem
    exact publicName_ne_privateName _ _ hname.symm
  · by_cases hcount : shares.length = 1
    · obtain ⟨share, rfl⟩ := List.length_eq_one_iff.1 hcount
      exact List.nodup_singleton _
    · refine (List.nodup_map_iff_inj_on (List.Nodup.of_map _ hindices)).2 ?_
      intro share hshare other hother hname
      exact List.inj_on_of_nodup_map hindices hshare hother ((privateName_inj hcount).1 hname)

/-- The files of the private shares among `count` of them. -/
def privateFiles (directory : Location) (count : Nat) (shares : List PrivateShare) :
    List FileWrite :=
  shares.map fun share =>
    ⟨directory ++ [privateName share.index count], fileOf share, privateMode⟩

/-- The files of an election, in the order in which they are written. -/
def keyFiles (directory : Location) (key : PublicKey) (shares : List PrivateShare) :
    List FileWrite :=
  ⟨directory ++ [publicName], fileOf key, publicMode⟩ ::
    privateFiles directory shares.length shares

section Save

variable {storage saved : Storage} {directory : Location} {name : String} {mode count : Nat}
  {names : List String} {key : PublicKey} {shares : List PrivateShare}

theorem save_eq_ok {α : Type} [Wire.Record α] {key : α} (hplain : IsPlain name)
    (hsave : save directory name mode key storage = (.ok (), saved)) :
    storage.Reaches directory name ∧
      saved = storage.overwrite ⟨directory ++ [name], fileOf key, mode⟩ := by
  obtain ⟨location, opened, hcreate, hrest⟩ := Stateful.bind_eq_ok_iff.1 hsave
  obtain ⟨hreaches, rfl, rfl⟩ := Storing.create_eq_ok hplain hcreate
  by_cases hsize : (Wire.encode key).length < UInt32.size
  · rw [frame_encode hsize] at hrest
    have hfill : Storing.fill (directory ++ [name]) (fileOf key) _ = (.ok (), saved) := hrest
    rw [Storing.fill_overwrite] at hfill
    cases hfill
    exact ⟨hreaches, rfl⟩
  · have hframe : frame (Wire.encode key) = .error (.badKey .recordTooLarge) := by
      rw [frame, ensure, if_neg hsize]
      rfl
    rw [hframe] at hrest
    cases hrest

theorem append_singleton_ne (directory : Location) (name : String) : directory ++ [name] ≠ [] := by
  simp

theorem append_singleton_inj {other : String} :
    directory ++ [name] = directory ++ [other] ↔ name = other := by
  simp

theorem ne_append_singleton : directory ≠ directory ++ [name] := fun heq => by
  simpa using congrArg List.length heq

/-- Writing a file in a directory does not change what is reached there. -/
theorem reaches_overwrite {content : Bytes} {other : String} :
    (storage.overwrite ⟨directory ++ [name], content, mode⟩).Reaches directory other ↔
      storage.Reaches directory other := by
  rw [Reaches, Reaches, node?_overwrite (append_singleton_ne _ _), if_neg ne_append_singleton]

/-- Saving private shares one after the other writes their files. -/
theorem mapM_save_eq_ok
    (hsave : (shares.mapM fun share => do
      save directory (privateName share.index count) privateMode share
      pure (privateName share.index count) : Storing (List String)) storage = (.ok names, saved)) :
    names = (shares.map fun share => privateName share.index count) ∧
      (∀ name ∈ names, storage.Reaches directory name) ∧
      saved = storage.overwriteAll (privateFiles directory count shares) := by
  induction shares generalizing storage names with
  | nil =>
    cases hsave
    exact ⟨rfl, fun _ hmem => (List.not_mem_nil hmem).elim, rfl⟩
  | cons share rest ih =>
    rw [List.mapM_cons] at hsave
    obtain ⟨name, between, hhead, hsave⟩ := Stateful.bind_eq_ok_iff.1 hsave
    obtain ⟨_, written, hshare, hname⟩ := Stateful.bind_eq_ok_iff.1 hhead
    cases hname
    obtain ⟨others, reached, hrest, hnames⟩ := Stateful.bind_eq_ok_iff.1 hsave
    cases hnames
    obtain ⟨hreaches, rfl⟩ := save_eq_ok (isPlain_privateName _ _) hshare
    obtain ⟨rfl, hothers, rfl⟩ := ih hrest
    refine ⟨rfl, List.forall_mem_cons.2 ⟨hreaches, fun name hname => ?_⟩, rfl⟩
    exact reaches_overwrite.1 (hothers name hname)

/-- Saving the keys of an election makes the directory and writes their files. -/
theorem saveAll_eq_ok (hsave : saveAll directory key shares storage = (.ok names, saved)) :
    names = fileNames shares ∧ ∃ made,
      Storing.makeDirectory [] directory storage = (.ok (), made) ∧
      (∀ name ∈ names, made.Reaches directory name) ∧
      saved = made.overwriteAll (keyFiles directory key shares) := by
  obtain ⟨_, made, hmade, hsave⟩ := Stateful.bind_eq_ok_iff.1 hsave
  obtain ⟨_, written, hpublic, hsave⟩ := Stateful.bind_eq_ok_iff.1 hsave
  obtain ⟨privates, reached, hprivate, hnames⟩ := Stateful.bind_eq_ok_iff.1 hsave
  cases hnames
  obtain ⟨hreaches, rfl⟩ := save_eq_ok isPlain_publicName hpublic
  obtain ⟨rfl, hothers, rfl⟩ := mapM_save_eq_ok hprivate
  refine ⟨rfl, made, hmade, List.forall_mem_cons.2 ⟨hreaches, fun name hname => ?_⟩, rfl⟩
  exact reaches_overwrite.1 (hothers name hname)

theorem location_keyFiles : (keyFiles directory key shares).map (·.location) =
    (fileNames shares).map fun name => directory ++ [name] := by
  rw [keyFiles, fileNames, privateFiles, List.map_cons, List.map_cons, List.map_map, List.map_map]
  rfl

theorem location_ne_nil {file : FileWrite} (hmem : file ∈ keyFiles directory key shares) :
    file.location ≠ [] := by
  have hlocation : file.location ∈ (keyFiles directory key shares).map (·.location) :=
    List.mem_map_of_mem hmem
  rw [location_keyFiles] at hlocation
  obtain ⟨name, _, hname⟩ := List.mem_map.1 hlocation
  exact hname ▸ append_singleton_ne directory name

/-- A file in a directory is not on the way to it. -/
theorem node?_eq_of_keptOrMade {before after : Storage}
    (hkept : before.KeptOrMade after directory (directory ++ [name])) :
    after.node? (directory ++ [name]) = before.node? (directory ++ [name]) := by
  refine hkept.resolve_right fun hmade => ?_
  have hle := hmade.2.2.length_le
  rw [List.length_append, List.length_singleton] at hle
  omega

theorem load_eq {α : Type} [Wire.Record α] {content : Bytes} (hplain : IsPlain name)
    (hreaches : storage.Reaches directory name)
    (hnode : storage.node? (directory ++ [name]) = some (.file content mode)) :
    (load storage directory name : Except Error α) = keyIn .broken ⟨[content], false⟩ := by
  have hcontent : storage.content directory name = .ok content := by
    rw [Storage.content, (find_eq_ok_iff hplain).2 ⟨hreaches, rfl⟩]
    dsimp only [bind, Except.bind]
    rw [hnode]
    rfl
  rw [load, hcontent]
  rfl

theorem pathIn_injective (path : String) : Function.Injective (pathIn path) := by
  intro name other hpath
  rw [pathIn, pathIn] at hpath
  split at hpath
  · exact (String.append_right_inj _).1 hpath
  · exact (String.append_right_inj _).1 hpath

/-- The permission bits at a location are private exactly if those of a file that was there are. -/
theorem isPrivate_modeAt_iff {location : Location} :
    isPrivate (storage.modeAt location privateMode) = true ↔ ∀ earlier kept,
      storage.node? location = some (.file earlier kept) → isPrivate kept = true := by
  rw [modeAt]
  cases storage.node? location with
  | none =>
    refine ⟨fun _ _ _ hnode => ?_, fun _ => rfl⟩
    cases hnode
  | some node =>
    cases node with
    | directory =>
      refine ⟨fun _ _ _ hnode => ?_, fun _ => rfl⟩
      cases hnode
    | file content mode =>
      refine ⟨fun hmode _ _ hnode => ?_, fun hall => hall content mode rfl⟩
      cases hnode
      exact hmode

end Save

/-- What saving the keys of an election in a directory has done. -/
structure KeysSaved (storage saved : Storage) (directory : Location) (key : PublicKey)
    (shares : List PrivateShare) (names : List String) : Prop where
  /-- The names of the files are returned, that of the public key first. -/
  names_eq : names = publicName :: shares.map fun share => privateName share.index shares.length
  /-- Wherever the directory is found, no two of the files have one path. -/
  paths_nodup : ∀ path, (names.map (pathIn path)).Nodup
  /-- The public key is loaded as it was saved. -/
  load_publicKey : load saved directory publicName = .ok key
  /-- Each private share is loaded as it was saved. -/
  load_privateShare : ∀ share ∈ shares,
    load saved directory (privateName share.index shares.length) = .ok share
  /-- Nothing else has changed, but directories on the way that were missing have been made. -/
  others_kept : ∀ location, (∀ name ∈ names, location ≠ directory ++ [name]) →
    storage.KeptOrMade saved directory location

section Saved

variable {storage saved : Storage} {directory : Location} {names : List String} {key : PublicKey}
  {shares : List PrivateShare}

theorem saved_keys_load_back (hindices : (shares.map (·.index)).Nodup)
    (hkey : (Wire.encode key).length ≤ maxRecord)
    (hshares : ∀ share ∈ shares, (Wire.encode share).length ≤ maxRecord)
    (hsave : saveAll directory key shares storage = (.ok names, saved)) :
    KeysSaved storage saved directory key shares names := by
  obtain ⟨rfl, made, hmade, hreaches, rfl⟩ := saveAll_eq_ok hsave
  have hnames := nodup_fileNames hindices
  have hlocations : ((keyFiles directory key shares).map (·.location)).Nodup := by
    rw [location_keyFiles]
    exact hnames.map fun _ _ => append_singleton_inj.1
  have hothers {location : Location}
      (hother : ∀ name ∈ fileNames shares, location ≠ directory ++ [name]) :
      (made.overwriteAll (keyFiles directory key shares)).node? location = made.node? location := by
    refine node?_overwriteAll_of_not_mem (fun _ => location_ne_nil) made fun hmem => ?_
    rw [location_keyFiles] at hmem
    obtain ⟨name, hname, heq⟩ := List.mem_map.1 hmem
    exact hother name hname heq.symm
  have hloads {α : Type} [Wire.Record α] {name : String} {value : α} {mode : Nat}
      (hplain : IsPlain name) (hname : name ∈ fileNames shares)
      (hfile : ⟨directory ++ [name], fileOf value, mode⟩ ∈ keyFiles directory key shares)
      (hsize : (Wire.encode value).length ≤ maxRecord)
      (hdecode : Wire.decode (Wire.encode value) = .ok value) :
      load (made.overwriteAll (keyFiles directory key shares)) directory name = .ok value := by
    have hnode := node?_overwriteAll_of_mem (fun _ => location_ne_nil) made hlocations hfile
    rw [load_eq hplain ?_ hnode]
    · exact keyIn_fileOf hsize hdecode rfl (List.append_nil _)
    · rw [Reaches, hothers fun _ _ => ne_append_singleton]
      exact hreaches name hname
  refine ⟨rfl, fun path => hnames.map (pathIn_injective path), ?_, ?_, ?_⟩
  · exact hloads isPlain_publicName List.mem_cons_self List.mem_cons_self hkey
      (decode_encode_publicKey hkey)
  · intro share hshare
    have hsize := hshares share hshare
    exact hloads (isPlain_privateName _ _)
      (List.mem_cons_of_mem _ (List.mem_map_of_mem hshare))
      (List.mem_cons_of_mem _ (List.mem_map_of_mem hshare)) hsize (decode_encode_privateShare hsize)
  · intro location hlocation
    rw [KeptOrMade, hothers hlocation]
    exact Storing.makeDirectory_eq_ok hmade location

/-- A directory with longer files under names of an election of two shares. The public key's is for
    its owner alone, the first share's may be read by everyone. -/
def olderFiles : Storage :=
  Dict.ofList [(["keys"], .directory), (["keys", "notes"], .file [1] 0o644),
    (["keys", "private-1.key"], .file (List.replicate 99 0) 0o644),
    (["keys", "private.key"], .file (List.replicate 99 0) 0o644),
    (["keys", "public.key"], .file (List.replicate 99 0) 0o600)]

/-- Shares of the group of order 11, of which each suffices alone. -/
def smallShares (indices : List UInt64) : List PrivateShare :=
  indices.filterMap fun index => (PrivateShare.new Group.small index 1 4).toOption

theorem saved_keys_load_back_over_longer_files :
    ∃ names saved,
      KeysSaved olderFiles saved ["keys"] PublicKey.small (smallShares [1, 2]) names := by
  have hindices : ((smallShares [1, 2]).map (·.index)).Nodup := by decide
  have hkey : (Wire.encode PublicKey.small).length ≤ maxRecord := by decide
  have hshares : ∀ share ∈ smallShares [1, 2], (Wire.encode share).length ≤ maxRecord := by decide
  have hnames : (saveAll ["keys"] PublicKey.small (smallShares [1, 2]) olderFiles).1 =
      .ok ["public.key", "private-1.key", "private-2.key"] := by decide +kernel
  rcases hsave : saveAll ["keys"] PublicKey.small (smallShares [1, 2]) olderFiles with
    ⟨outcome, saved⟩
  rw [hsave] at hnames
  dsimp only at hnames
  subst hnames
  exact ⟨_, saved, saved_keys_load_back hindices hkey hshares hsave⟩

/-- A private file is for its owner alone exactly if it is new or was so before: the permission bits
    of a file that is overwritten stay. -/
theorem private_file_protected_iff
    (hsave : saveAll directory key shares storage = (.ok names, saved)) : ∀ share ∈ shares,
    ∃ content mode, saved.node? (directory ++ [privateName share.index shares.length]) =
        some (.file content mode) ∧
      (isPrivate mode = true ↔ ∀ earlier kept,
        storage.node? (directory ++ [privateName share.index shares.length]) =
          some (.file earlier kept) → isPrivate kept = true) := by
  intro share hshare
  obtain ⟨rfl, made, hmade, -, rfl⟩ := saveAll_eq_ok hsave
  let location := directory ++ [privateName share.index shares.length]
  let opened := made.overwrite ⟨directory ++ [publicName], fileOf key, publicMode⟩
  have hmem : location ∈ (privateFiles directory shares.length shares).map (·.location) := by
    rw [privateFiles, List.map_map]
    exact List.mem_map_of_mem hshare
  have hprivate : ∀ file ∈ privateFiles directory shares.length shares,
      file.location ≠ [] ∧ file.mode = privateMode := by
    intro file hfile
    obtain ⟨_, _, rfl⟩ := List.mem_map.1 hfile
    exact ⟨append_singleton_ne _ _, rfl⟩
  obtain ⟨content, hnode⟩ := exists_file_overwriteAll (fun file hfile => (hprivate file hfile).1)
    opened (fun file hfile => (hprivate file hfile).2) hmem
  have hother : location ≠ directory ++ [publicName] := fun heq =>
    publicName_ne_privateName _ _ (append_singleton_inj.1 heq).symm
  have hopened : opened.node? location = made.node? location :=
    (node?_overwrite (append_singleton_ne _ _)).trans (if_neg hother)
  have hbefore : opened.node? location = storage.node? location :=
    hopened.trans (node?_eq_of_keptOrMade (Storing.makeDirectory_eq_ok hmade location))
  rw [modeAt_congr hbefore] at hnode
  exact ⟨content, _, hnode, isPrivate_modeAt_iff⟩

/-- Over the older files the first share's file may be read by everyone, the second share's not. -/
theorem private_file_protected_iff_older :
    ∃ names saved, saveAll ["keys"] PublicKey.small (smallShares [1, 2]) olderFiles =
        (.ok names, saved) ∧
      (∃ content mode, saved.node? ["keys", "private-1.key"] = some (.file content mode) ∧
        isPrivate mode = false) ∧
      ∃ content mode, saved.node? ["keys", "private-2.key"] = some (.file content mode) ∧
        isPrivate mode = true := by
  have hnames : (saveAll ["keys"] PublicKey.small (smallShares [1, 2]) olderFiles).1 =
      .ok ["public.key", "private-1.key", "private-2.key"] := by decide +kernel
  rcases hsave : saveAll ["keys"] PublicKey.small (smallShares [1, 2]) olderFiles with
    ⟨outcome, saved⟩
  rw [hsave] at hnames
  dsimp only at hnames
  subst hnames
  have holder : olderFiles.node? ["keys", "private-1.key"] =
      some (.file (List.replicate 99 0) 0o644) := by decide +kernel
  have hnew : olderFiles.node? ["keys", "private-2.key"] = none := by decide +kernel
  have hprotected := private_file_protected_iff hsave
  refine ⟨_, saved, rfl, ?_, ?_⟩
  · obtain ⟨content, mode, hnode, hmode⟩ := hprotected
      ((smallShares [1, 2]).get ⟨0, by decide⟩) (List.get_mem _ _)
    refine ⟨content, mode, hnode, ?_⟩
    rw [← Bool.not_eq_true, hmode]
    exact fun hall => absurd (hall _ _ holder) (by decide)
  · obtain ⟨content, mode, hnode, hmode⟩ := hprotected
      ((smallShares [1, 2]).get ⟨1, by decide⟩) (List.get_mem _ _)
    refine ⟨content, mode, hnode, hmode.2 fun _ _ hnode => ?_⟩
    cases hnew.symm.trans hnode

/-- A share that is saved over a file that everyone may read may be read by everyone. -/
theorem private_file_left_readable : ¬ ∀ (storage saved : Storage) (directory : Location)
    (key : PublicKey) (shares : List PrivateShare) (names : List String),
    saveAll directory key shares storage = (.ok names, saved) → ∀ share ∈ shares, ∀ content mode,
      saved.node? (directory ++ [privateName share.index shares.length]) =
        some (.file content mode) → isPrivate mode = true := by
  intro hall
  have hnames : (saveAll ["keys"] PublicKey.small (smallShares [1]) olderFiles).1 =
      .ok ["public.key", "private.key"] := by decide +kernel
  let share := (smallShares [1]).get ⟨0, by decide⟩
  have hnode : (saveAll ["keys"] PublicKey.small (smallShares [1]) olderFiles).2.node?
      ["keys", "private.key"] = some (.file (fileOf share) 0o644) := by decide +kernel
  rcases hsave : saveAll ["keys"] PublicKey.small (smallShares [1]) olderFiles with ⟨outcome, saved⟩
  rw [hsave] at hnames hnode
  dsimp only at hnames hnode
  subst hnames
  exact absurd (hall _ _ _ _ _ _ hsave share (List.get_mem _ _) _ _ hnode) (by decide)

end Saved

end KeyFile

end SecretBallot
