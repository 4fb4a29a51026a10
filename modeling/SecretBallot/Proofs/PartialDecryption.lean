import Mathlib
import SecretBallot.Proofs.Ciphertext
import SecretBallot.Proofs.Key

namespace SecretBallot

namespace Group

/-- Factors of the exponents can be taken out of the sum that interpolates. -/
theorem cast_sum_weighted (group : Group) (r : Nat) (points : List (Nat × Nat))
    (coefficients : List Nat) :
    ((((points.zip coefficients).map fun entry => r * entry.1.2 * entry.2).sum : Nat) :
      ZMod group.q) =
        r * (group.sumQ (List.zipWith group.mulQ coefficients (points.map (·.2))) : Nat) := by
  rw [cast_sumQ]
  induction points generalizing coefficients with
  | nil => simp
  | cons point rest ih =>
    cases coefficients with
    | nil => simp
    | cons coefficient others =>
      simp only [List.zip_cons_cons, List.map_cons, List.sum_cons, List.zipWith_cons_cons,
        Nat.cast_add, Nat.cast_mul, cast_mulQ, ih]
      ring

/-- Interpolation in the exponent is interpolation of the exponents. -/
theorem interpolateInExponent_powG {group : Group} (hsafe : group.IsSafe) (r : Nat)
    (points : List (Nat × Nat)) :
    group.interpolateInExponent (points.map fun point => (point.1, group.powG (r * point.2))) =
      (group.interpolate points).map fun x => group.powG (r * x) := by
  have hindices : (points.map fun point => (point.1, group.powG (r * point.2))).map (·.1) =
      points.map (·.1) := by
    rw [List.map_map]
    rfl
  rw [interpolateInExponent, interpolate, hindices]
  cases group.lagranges (points.map (·.1)) with
  | error failure => rfl
  | ok coefficients =>
    have hpowers : ((points.map fun point => (point.1, group.powG (r * point.2))).zip
        coefficients).mapM (fun entry => group.pow entry.1.2 entry.2) =
        .ok (((points.zip coefficients).map fun entry => r * entry.1.2 * entry.2).map
          group.powG) := by
      rw [List.zip_map_left, List.mapM_map, List.map_map]
      exact mapM_eq_ok fun entry _ => group.pow_powG _ _
    rw [ok_bind, hpowers, ok_bind]
    refine congrArg Except.ok ?_
    rw [product_powG, powG_eq_powG_iff hsafe, cast_sum_weighted, Nat.cast_mul]

end Group

/-- A key that was combined belongs to the group of the shares. -/
theorem DecryptionKey.group_of_combine {group : Group} {shares : List PrivateShare}
    (hgroup : ∀ share ∈ shares, share.group = group) {key : DecryptionKey}
    (hcombine : combine shares = .ok key) : key.group = group := by
  cases shares with
  | nil => cases hcombine
  | cons first rest =>
    rw [combine] at hcombine
    obtain ⟨_, _, hcombine⟩ := bind_eq_ok_iff.1 hcombine
    obtain ⟨_, _, hkey⟩ := bind_eq_ok_iff.1 hcombine
    cases hkey
    exact hgroup first List.mem_cons_self

/-- The exponent of a key matters modulo `q`. -/
theorem Ciphertext.decrypt_congr {group : Group} (hsafe : group.IsSafe) {x y : Nat}
    (hexp : (x : ZMod group.q) = y) {ciphertext : Ciphertext}
    (hformed : ciphertext.isWellFormed group = true) (bound : Nat) :
    decrypt ⟨group, x⟩ ciphertext bound = decrypt ⟨group, y⟩ ciphertext bound := by
  obtain ⟨r, d, rfl⟩ := exists_eq_powG hsafe hformed
  have hunmask : (⟨group, x⟩ : DecryptionKey).unmask (group.powG r) =
      (⟨group, y⟩ : DecryptionKey).unmask (group.powG r) := by
    have hpower : group.powG (r * x) = group.powG (r * y) := by
      rw [Group.powG_eq_powG_iff hsafe, Nat.cast_mul, Nat.cast_mul, hexp]
    rw [DecryptionKey.unmask, DecryptionKey.unmask, Group.pow_powG, Group.pow_powG, hpower]
  rw [decrypt, decrypt, hunmask]

namespace PartialDecryption

variable {group : Group} {threshold : UInt64}

theorem collect_eq_ok_iff {collected result : Dict UInt64 Nat} {part : PartialDecryption} :
    collect group threshold collected part = .ok result ↔
      part.threshold = threshold ∧ (part.index ≠ 0 ∧ part.index.toNat < group.q) ∧
        group.isMember part.value = true ∧
          (∀ found, collected.get? part.index = some found → found = part.value) ∧
            result = collected.insert part.index part.value := by
  simp only [collect, bind_eq_ok_iff, ensure_eq_ok_iff, storePoint_eq_ok_iff]
  constructor
  · rintro ⟨_, hthreshold, _, hindex, _, hmember, hstore⟩
    exact ⟨hthreshold, hindex, hmember, hstore⟩
  · rintro ⟨hthreshold, hindex, hmember, hstore⟩
    exact ⟨(), hthreshold, (), hindex, (), hmember, hstore⟩

/-- A mask is interpolated between what was collected under one threshold. -/
theorem of_combine_eq_ok {parts : List PartialDecryption} {mask : Nat}
    (hcombine : combine group parts = .ok mask) : parts ≠ [] ∧ ∃ threshold collected lowest,
      parts.foldlM (collect group threshold) ∅ = .ok collected ∧
        lowestPoints threshold collected = .ok lowest ∧
          group.interpolateInExponent lowest = .ok mask := by
  cases parts with
  | nil => cases hcombine
  | cons first rest =>
    rw [combine] at hcombine
    obtain ⟨_, _, hcombine⟩ := bind_eq_ok_iff.1 hcombine
    obtain ⟨lowest, hpoints, hinterpolate⟩ := bind_eq_ok_iff.1 hcombine
    rw [lift_eq_ok_iff, points] at hpoints
    obtain ⟨collected, hcollect, hlowest⟩ := bind_eq_ok_iff.1 hpoints
    exact ⟨List.cons_ne_nil _ _, _, collected, lowest, hcollect, hlowest, hinterpolate⟩

/-- What the holder of a share contributes to unmasking `g ^ r`. -/
def ofShare (group : Group) (r : Nat) (share : PrivateShare) : PartialDecryption :=
  ⟨share.index, share.threshold, group.powG (r * share.value)⟩

/-- What is collected from partial decryptions if `collected` is collected from the shares. -/
def masks (group : Group) (r : Nat) (collected : Dict UInt64 Nat) : Dict UInt64 Nat :=
  collected.map fun _ value => group.powG (r * value)

theorem masks_insert (r : Nat) (collected : Dict UInt64 Nat) (index : UInt64) (value : Nat) :
    masks group r (collected.insert index value) =
      (masks group r collected).insert index (group.powG (r * value)) := by
  refine Dict.ext_get? fun other => ?_
  simp only [masks, Dict.get?_map, Dict.get?_insert]
  by_cases hother : other = index
  · rw [if_pos hother, if_pos hother, Option.map_some]
  · rw [if_neg hother, if_neg hother]

/-- The points of the lowest indices are raised in the exponent, and there are as many of them. -/
theorem lowestPoints_masks (r : Nat) (collected : Dict UInt64 Nat) :
    lowestPoints threshold (masks group r collected) =
      (lowestPoints threshold collected).map fun points =>
        points.map fun point => (point.1, group.powG (r * point.2)) := by
  have hsize : (masks group r collected).size = collected.size := List.length_map _
  rcases Nat.lt_or_ge collected.size threshold.toNat with hcount | hcount
  · rw [lowestPoints_of_lt hcount, lowestPoints_of_lt (hsize.symm ▸ hcount), hsize, Except.map]
  · rw [lowestPoints_of_le hcount, lowestPoints_of_le (hsize.symm ▸ hcount), Except.map, masks,
      Dict.map, ← List.map_take, List.map_map, List.map_map]
    rfl

/-- The point that the contribution of a share is, if `point` is the share's. -/
def masked (group : Group) (r : Nat) (point : UInt64 × Nat) : UInt64 × Nat :=
  (point.1, group.powG (r * point.2))

/-- Where points are collected, so are their masks. -/
theorem storeAll_masked {r : Nat} {collected result : Dict UInt64 Nat}
    {points : List (UInt64 × Nat)} (hstore : storeAll collected points = .ok result) :
    storeAll (masks group r collected) (points.map (masked group r)) =
      .ok (masks group r result) := by
  rw [storeAll_eq_ok_iff] at hstore ⊢
  intro index mask
  simp only [masks, Dict.get?_map, Option.map_eq_some_iff, hstore, List.mem_map, masked,
    Prod.exists, Prod.mk.injEq]
  constructor
  · rintro ⟨value, hfound | hpoint, hmask⟩
    · exact .inl ⟨value, hfound, hmask⟩
    · exact .inr ⟨index, value, hpoint, rfl, hmask⟩
  · rintro (⟨value, hfound, hmask⟩ | ⟨_, value, hpoint, rfl, hmask⟩)
    · exact ⟨value, .inl hfound, hmask⟩
    · exact ⟨value, .inr hpoint, hmask⟩

section Lockstep

variable (hsafe : group.IsSafe) {r : Nat}

include hsafe

/-- Of the contributions to one election the masks of the shares' points are stored. -/
theorem foldlM_collect_ofShare {shares : List PrivateShare}
    (hshares : ∀ share ∈ shares, share.group = group ∧ share.threshold = threshold)
    (collected : Dict UInt64 Nat) :
    (shares.map (ofShare group r)).foldlM (collect group threshold) collected =
      storeAll collected ((shares.map PrivateShare.point).map (masked group r)) := by
  induction shares generalizing collected with
  | nil => rfl
  | cons share rest ih =>
    obtain ⟨⟨rfl, rfl⟩, hrest⟩ := List.forall_mem_cons.1 hshares
    have hthreshold : (ofShare share.group r share).threshold = share.threshold := rfl
    have hindex : (ofShare share.group r share).index ≠ 0 ∧
        (ofShare share.group r share).index.toNat < share.group.q :=
      ⟨share.index_ne_zero, share.index_lt_q⟩
    have hmember : share.group.isMember (ofShare share.group r share).value = true :=
      Group.isMember_powG hsafe _
    rw [List.map_cons, List.foldlM_cons, List.map_cons, List.map_cons, storeAll_cons, collect,
      ensure_of _ hthreshold, ensure_of _ hindex, ensure_of _ hmember]
    exact bind_congr fun collected => ih hrest collected

/-- A mask is interpolated between the lowest of the points that contributions to one election
    are. -/
theorem combine_ofShare_eq {shares : List PrivateShare} (hne : shares ≠ [])
    (hshares : ∀ share ∈ shares, share.group = group ∧ share.threshold = threshold) :
    combine group (shares.map (ofShare group r)) = (do
      let lowest ← (liftM (storeAll ∅ ((shares.map PrivateShare.point).map (masked group r)) >>=
        lowestPoints threshold) : Outcome (List (Nat × Nat)))
      group.interpolateInExponent lowest) := by
  cases shares with
  | nil => exact absurd rfl hne
  | cons first rest =>
    obtain ⟨_, hthreshold⟩ := hshares first List.mem_cons_self
    have hsame : (ofShare group r first).threshold = threshold := hthreshold
    have hthresholdNe : (ofShare group r first).threshold ≠ 0 := first.threshold_ne_zero
    rw [List.map_cons, combine, ensure_of _ hthresholdNe, hsame, points, ← List.map_cons,
      foldlM_collect_ofShare hsafe hshares]
    rfl

/-- If the shares go together, their contributions give the mask of the combined key, and are
    refused where the shares are. -/
theorem combine_ofShare {shares : List PrivateShare} (hne : shares ≠ [])
    {collected : Dict UInt64 Nat}
    (hcollect : shares.foldlM (DecryptionKey.collectShare group threshold) ∅ = .ok collected) :
    combine group (shares.map (ofShare group r)) =
      (DecryptionKey.combine shares).map fun key => group.powG (r * key.x) := by
  have hshares := DecryptionKey.forall_of_foldlM_collectShare hcollect
  have hstore : storeAll ∅ (shares.map PrivateShare.point) = .ok collected :=
    (DecryptionKey.foldlM_collectShare_eq hshares ∅).symm.trans hcollect
  have hmasked : storeAll ∅ ((shares.map PrivateShare.point).map (masked group r)) =
      .ok (masks group r collected) := storeAll_masked hstore
  rw [combine_ofShare_eq hsafe hne hshares, DecryptionKey.combine_eq hne hshares, hmasked, hstore,
    ok_bind, ok_bind, lowestPoints_masks]
  cases lowestPoints threshold collected with
  | error error => rfl
  | ok lowest =>
    rw [Except.map, lift_ok, lift_ok, ok_bind, ok_bind, Group.interpolateInExponent_powG hsafe]
    cases group.interpolate lowest with
    | error failure => rfl
    | ok x => rfl

section Masked

variable (hr : (r : ZMod group.q) ≠ 0)

include hr

theorem mask_injective {a b : Nat} (ha : a < group.q) (hb : b < group.q)
    (hmask : group.powG (r * a) = group.powG (r * b)) : a = b := by
  have := Fact.mk hsafe.prime_q
  rw [Group.powG_eq_powG_iff hsafe, Nat.cast_mul, Nat.cast_mul] at hmask
  exact group.eq_of_castQ_eq ha hb (mul_left_cancel₀ hr hmask)

/-- If an element is masked at all, the mask of a value is stored or refused where the value is. -/
theorem storePoint_masked {collected : Dict UInt64 Nat} {index : UInt64} {value : Nat}
    (hcollected : ∀ found, collected.get? index = some found → found < group.q)
    (hvalue : value < group.q) :
    storePoint (masks group r collected) index (group.powG (r * value)) =
      (storePoint collected index value).map (masks group r) := by
  cases hstore : storePoint collected index value with
  | ok next =>
    obtain ⟨hsame, rfl⟩ := storePoint_eq_ok_iff.1 hstore
    refine storePoint_eq_ok_iff.2 ⟨fun mask hmask => ?_, masks_insert r collected index value⟩
    rw [masks, Dict.get?_map] at hmask
    obtain ⟨found, hfound, rfl⟩ := Option.map_eq_some_iff.1 hmask
    rw [hsame found hfound]
  | error error =>
    obtain ⟨rfl, found, hfound, hne⟩ := exists_of_storePoint_eq_error hstore
    have hmask : ¬ ((masks group r collected).get? index).all
        (· == group.powG (r * value)) = true := by
      rw [masks, Dict.get?_map, hfound, Option.map_some, Option.all_some, beq_iff_eq]
      exact fun hmask => hne (mask_injective hsafe hr (hcollected found hfound) hvalue hmask)
    rw [storePoint, ensure, if_neg hmask]
    rfl

/-- If an element is masked at all, masks are collected or refused in lockstep with the values. -/
theorem storeAll_masked_eq {collected : Dict UInt64 Nat} {points : List (UInt64 × Nat)}
    (hcollected : ∀ index found, collected.get? index = some found → found < group.q)
    (hpoints : ∀ point ∈ points, point.2 < group.q) :
    storeAll (masks group r collected) (points.map (masked group r)) =
      (storeAll collected points).map (masks group r) := by
  -- What was collected stays reduced, so that equal masks mean equal values.
  induction points generalizing collected with
  | nil => rfl
  | cons point rest ih =>
    obtain ⟨hpoint, hrest⟩ := List.forall_mem_cons.1 hpoints
    rw [List.map_cons, storeAll_cons, storeAll_cons, masked,
      storePoint_masked hsafe hr (hcollected point.1) hpoint]
    cases hstore : storePoint collected point.1 point.2 with
    | error error => rfl
    | ok next =>
      obtain ⟨_, rfl⟩ := storePoint_eq_ok_iff.1 hstore
      refine ih (fun index found hfound => ?_) hrest
      rw [Dict.get?_insert] at hfound
      by_cases hindex : index = point.1
      · rw [if_pos hindex, Option.some.injEq] at hfound
        exact hfound ▸ hpoint
      · rw [if_neg hindex] at hfound
        exact hcollected index found hfound

/-- Contributions to unmasking a masked element are stored or refused where the shares are. -/
theorem storeAll_masked_shares {shares : List PrivateShare}
    (hgroup : ∀ share ∈ shares, share.group = group) :
    storeAll ∅ ((shares.map PrivateShare.point).map (masked group r)) =
      (storeAll ∅ (shares.map PrivateShare.point)).map (masks group r) := by
  have hpoints : ∀ point ∈ shares.map PrivateShare.point, point.2 < group.q := by
    refine List.forall_mem_map.2 fun share hshare => ?_
    exact hgroup share hshare ▸ share.value_lt_q
  have hempty : ∀ index found, (∅ : Dict UInt64 Nat).get? index = some found → found < group.q := by
    intro index found hfound
    cases hfound
  exact storeAll_masked_eq hsafe hr hempty hpoints

/-- Contributions that unmask a masked element come from shares that go together. -/
theorem exists_collected_of_combine {shares : List PrivateShare}
    (hgroup : ∀ share ∈ shares, share.group = group) {mask : Nat}
    (hcombine : combine group (shares.map (ofShare group r)) = .ok mask) : shares ≠ [] ∧
      ∃ threshold collected,
        shares.foldlM (DecryptionKey.collectShare group threshold) ∅ = .ok collected := by
  obtain ⟨hne, threshold, collected, _, hcollect, _⟩ := of_combine_eq_ok hcombine
  have hthreshold : ∀ part ∈ shares.map (ofShare group r), part.threshold = threshold :=
    forall_mem_of_foldlM (fun _ _ _ hpart => (collect_eq_ok_iff.1 hpart).1) hcollect
  have hshares : ∀ share ∈ shares, share.group = group ∧ share.threshold = threshold :=
    fun share hshare => ⟨hgroup share hshare, hthreshold _ (List.mem_map_of_mem hshare)⟩
  rw [foldlM_collect_ofShare hsafe hshares, storeAll_masked_shares hsafe hr hgroup] at hcollect
  obtain ⟨values, hvalues, _⟩ := map_eq_ok_iff.1 hcollect
  exact ⟨fun hnil => hne (List.map_eq_nil_iff.2 hnil), threshold, values,
    (DecryptionKey.foldlM_collectShare_eq hshares ∅).trans hvalues⟩

end Masked

end Lockstep

/-- What is collected was contributed, under an index below `q` and as a member. -/
structure WasContributed (group : Group) (parts : List PartialDecryption) (index : UInt64)
    (value : Nat) : Prop where
  index_lt_q : index.toNat < group.q
  isMember : group.isMember value = true
  exists_part : ∃ part ∈ parts, part.value = value

theorem wasContributed {parts : List PartialDecryption} {result : Dict UInt64 Nat}
    (hcollect : parts.foldlM (collect group threshold) ∅ = .ok result) {index : UInt64}
    {value : Nat} (hget : result.get? index = some value) :
    WasContributed group parts index value := by
  have hempty (index : UInt64) (value : Nat)
      (hget : (∅ : Dict UInt64 Nat).get? index = some value) :
      WasContributed group parts index value := by
    cases hget
  refine foldlM_preserves (fun collected => ∀ index value,
    collected.get? index = some value → WasContributed group parts index value) ?_ hempty hcollect
    index value hget
  clear hget
  intro collected part next hpart hcollected hnext index value hget
  obtain ⟨_, ⟨_, hlt⟩, hmember, _, rfl⟩ := collect_eq_ok_iff.1 hnext
  rw [Dict.get?_insert] at hget
  by_cases hindex : index = part.index
  · rw [if_pos hindex, Option.some.injEq] at hget
    subst hget hindex
    exact ⟨hlt, hmember, part, hpart, rfl⟩
  · rw [if_neg hindex] at hget
    exact hcollected index value hget

/-- The mask of one is one, from whatever exponents it was computed. -/
theorem combine_eq_one (hsafe : group.IsSafe) {parts : List PartialDecryption}
    (hone : ∀ part ∈ parts, part.value = 1) {mask : Nat}
    (hcombine : combine group parts = .ok mask) : mask = 1 := by
  obtain ⟨_, threshold, collected, lowest, hcollect, hlowest, hinterpolate⟩ :=
    of_combine_eq_ok hcombine
  have hvalues : ∀ point ∈ lowest, point.2 = 1 := by
    intro point hpoint
    obtain ⟨_, _, hget⟩ := exists_of_mem_lowestPoints hlowest hpoint
    obtain ⟨part, hpart, hvalue⟩ := (wasContributed hcollect hget).exists_part
    exact hvalue ▸ hone part hpart
  -- One is the power of any exponent times zero, so this is interpolation in the exponent.
  have hpowers : lowest = lowest.map fun point => (point.1, group.powG (0 * point.2)) := by
    refine (List.map_id lowest).symm.trans (List.map_congr_left fun point hpoint => ?_)
    rw [Nat.zero_mul, Group.powG_zero, ← hvalues point hpoint]
    rfl
  rw [hpowers, Group.interpolateInExponent_powG hsafe] at hinterpolate
  obtain ⟨x, _, hmask⟩ := map_eq_ok_iff.1 hinterpolate
  rw [← hmask, Nat.zero_mul, Group.powG_zero]

end PartialDecryption

end SecretBallot
