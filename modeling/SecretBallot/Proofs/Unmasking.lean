import Mathlib
import SecretBallot.Proofs.PartialDecryption

namespace SecretBallot

namespace DecryptionKey

variable {group : Group} {threshold : UInt64} {shares listed : List PrivateShare}
  (hshares : ∀ share ∈ shares, share.group = group ∧ share.threshold = threshold)

include hshares

/-- Shares combine to a key if there are enough of them, and if no two of them conflict. -/
theorem combine_cases (hne : shares ≠ []) :
    (∃ collected, storeAll ∅ (shares.map PrivateShare.point) = .ok collected ∧
      ((∃ x, combine shares = .ok ⟨group, x⟩) ∨ combine shares =
        .error (.refused (.notEnoughShares collected.size threshold.toNat)))) ∨
    ∃ index, storeAll ∅ (shares.map PrivateShare.point) =
        .error (.duplicateAuthority index.toNat) ∧
      Conflicts (shares.map PrivateShare.point) index ∧
      combine shares = .error (.refused (.duplicateAuthority index.toNat)) := by
  rw [combine_eq hne hshares]
  cases hstore : storeAll ∅ (shares.map PrivateShare.point) with
  | error error =>
    obtain ⟨index, hconflicts, rfl⟩ := conflicts_of_storeAll hstore
    exact .inr ⟨index, rfl, hconflicts, rfl⟩
  | ok collected =>
    refine .inl ⟨collected, rfl, ?_⟩
    rw [ok_bind]
    rcases Nat.lt_or_ge collected.size threshold.toNat with hcount | hcount
    · right
      rw [lowestPoints_of_lt hcount, lift_error, error_bind]
    · left
      obtain ⟨lowest, hlowest⟩ : ∃ lowest, lowestPoints threshold collected = .ok lowest :=
        ⟨_, lowestPoints_of_le hcount⟩
      have hreduced : ∀ point ∈ lowest, point.1 < group.q := by
        intro point hpoint
        obtain ⟨index, hindex, hget⟩ := exists_of_mem_lowestPoints hlowest hpoint
        have hmem := (storeAll_eq_ok_iff.1 hstore index point.2).1 hget
        obtain ⟨share, hshare, heq⟩ := List.mem_map.1 (hmem.resolve_left (by simp))
        obtain ⟨rfl, _⟩ := Prod.mk.inj heq
        rw [hindex, ← (hshares share hshare).1]
        exact share.index_lt_q
      obtain ⟨x, hx⟩ := Group.exists_interpolate hreduced
      refine ⟨x, ?_⟩
      rw [hlowest, lift_ok, ok_bind, hx]
      apply ok_bind

/-- Unless there are none or two of them conflict, the points of the shares are stored. -/
theorem exists_stored {outcome : Outcome DecryptionKey} (hcombine : combine shares = outcome)
    (hnone : outcome ≠ .error (.refused (.uninitialized .privateShares)))
    (hconflict : ∀ index, outcome ≠ .error (.refused (.duplicateAuthority index))) :
    shares ≠ [] ∧ ∃ collected, storeAll ∅ (shares.map PrivateShare.point) = .ok collected := by
  subst hcombine
  have hne : shares ≠ [] := by
    rintro rfl
    exact hnone rfl
  obtain ⟨collected, hstore, _⟩ | ⟨index, _, _, hcombine⟩ := combine_cases hshares hne
  · exact ⟨hne, collected, hstore⟩
  · exact absurd hcombine (hconflict _)

/-- Where the shares are refused as conflicting, so are their points. -/
theorem storeAll_of_combine {index : Nat}
    (hcombine : combine shares = .error (.refused (.duplicateAuthority index))) :
    storeAll ∅ (shares.map PrivateShare.point) = .error (.duplicateAuthority index) := by
  have hne : shares ≠ [] := by
    rintro rfl
    cases hcombine
  obtain ⟨_, _, ⟨_, hfound⟩ | hfound⟩ | ⟨first, hstore, _, hfound⟩ := combine_cases hshares hne
  · rw [hcombine] at hfound
    cases hfound
  · rw [hcombine] at hfound
    cases hfound
  · rw [hcombine] at hfound
    cases hfound
    exact hstore

/-- The order of shares that do not conflict does not matter for the key. -/
theorem combine_perm (hlisted : listed.Perm shares) {collected : Dict UInt64 Nat}
    (hstore : storeAll ∅ (shares.map PrivateShare.point) = .ok collected) :
    combine listed = combine shares := by
  by_cases hne : shares = []
  · subst hne
    rw [hlisted.eq_nil]
  · have hneListed : listed ≠ [] := fun hnil => hne (hnil ▸ hlisted).symm.eq_nil
    have hlistedShares : ∀ share ∈ listed, share.group = group ∧ share.threshold = threshold :=
      fun share hshare => hshares share (hlisted.mem_iff.1 hshare)
    have hstoreListed : storeAll ∅ (listed.map PrivateShare.point) = .ok collected :=
      storeAll_perm (hlisted.map _) hstore
    rw [combine_eq hne hshares, combine_eq hneListed hlistedShares, hstore, hstoreListed]

end DecryptionKey

section Contributions

variable {group : Group} {r : Nat}

theorem PrivateShare.mapM_partialUnmask {listed : List PrivateShare}
    (hgroup : ∀ share ∈ listed, share.group = group) :
    listed.mapM (·.partialUnmask (group.powG r)) =
      .ok (listed.map (PartialDecryption.ofShare group r)) := by
  refine mapM_eq_ok fun share hshare => ?_
  rw [partialUnmask, hgroup share hshare, Group.pow_powG]
  rfl

/-- A partial decryption of a well-formed ciphertext unmasks its pad. -/
theorem Ciphertext.mapM_partialDecrypt {listed : List PrivateShare}
    (hgroup : ∀ share ∈ listed, share.group = group) {ciphertext : Ciphertext}
    (hformed : ciphertext.isWellFormed group = true) :
    listed.mapM (ciphertext.partialDecrypt ·) = listed.mapM (·.partialUnmask ciphertext.pad) := by
  refine mapM_congr fun share hshare => ?_
  rw [partialDecrypt, hgroup share hshare, ensure_of _ hformed]
  rfl

/-- Where both masks are the same, both ways to decrypt are. -/
theorem Ciphertext.decryptWithPartials_eq {key : DecryptionKey} (hkey : key.group = group)
    {ciphertext : Ciphertext} {parts : List PartialDecryption}
    (hmask : PartialDecryption.combine group parts = key.unmask ciphertext.pad) (bound : Nat) :
    ciphertext.decryptWithPartials group parts bound = ciphertext.decrypt key bound := by
  rw [decryptWithPartials, decrypt, hkey, hmask]

end Contributions

section Unmasking

variable {group : Group} {threshold : UInt64} {shares listed : List PrivateShare}
  (hsafe : group.IsSafe)
  (hshares : ∀ share ∈ shares, share.group = group ∧ share.threshold = threshold)
  (hlisted : listed.Perm shares) {r : Nat}

include hsafe hshares hlisted

/-- Contributions of shares that do not conflict give the mask of the combined key, or are refused
    as the shares are. -/
theorem PartialDecryption.combine_ofShare_perm {outcome : Outcome DecryptionKey}
    (hcombine : DecryptionKey.combine shares = outcome)
    (hnone : outcome ≠ .error (.refused (.uninitialized .privateShares)))
    (hconflict : ∀ index, outcome ≠ .error (.refused (.duplicateAuthority index))) :
    combine group (listed.map (ofShare group r)) =
      outcome.map fun key => group.powG (r * key.x) := by
  obtain ⟨hne, collected, hstore⟩ :=
    DecryptionKey.exists_stored hshares hcombine hnone hconflict
  have hneListed : listed ≠ [] := fun hnil => hne (hnil ▸ hlisted).symm.eq_nil
  have hlistedShares : ∀ share ∈ listed, share.group = group ∧ share.threshold = threshold :=
    fun share hshare => hshares share (hlisted.mem_iff.1 hshare)
  have hcollect : listed.foldlM (DecryptionKey.collectShare group threshold) ∅ = .ok collected := by
    rw [DecryptionKey.foldlM_collectShare_eq hlistedShares]
    exact storeAll_perm (hlisted.map _) hstore
  rw [combine_ofShare hsafe hneListed hcollect, DecryptionKey.combine_perm hshares hlisted hstore,
    hcombine]

/-- The mask of the combined key, with the key and with the contributions. -/
theorem PartialDecryption.exists_mask_of_combine {key : DecryptionKey}
    (hcombine : DecryptionKey.combine shares = .ok key) :
    ∃ mask, key.unmask (group.powG r) = .ok mask ∧
      combine group (listed.map (ofShare group r)) = .ok mask := by
  have hkey : key.group = group :=
    DecryptionKey.group_of_combine (fun share hshare => (hshares share hshare).1) hcombine
  refine ⟨group.powG (r * key.x), ?_, ?_⟩
  · rw [DecryptionKey.unmask, hkey, Group.pow_powG]
  · exact combine_ofShare_perm hsafe hshares hlisted hcombine (by simp) (by simp)

/-- Contributions to unmasking a masked element conflict if the shares do. -/
theorem PartialDecryption.combine_ofShare_of_conflict (hr : (r : ZMod group.q) ≠ 0) {error : Error}
    (hstore : storeAll ∅ (shares.map PrivateShare.point) = .error error) :
    ∃ index, Conflicts (shares.map PrivateShare.point) index ∧
      combine group (listed.map (ofShare group r)) =
        .error (.refused (.duplicateAuthority index.toNat)) ∧
      (listed = shares → error = .duplicateAuthority index.toNat) := by
  have hlistedShares : ∀ share ∈ listed, share.group = group ∧ share.threshold = threshold :=
    fun share hshare => hshares share (hlisted.mem_iff.1 hshare)
  cases hstoreListed : storeAll ∅ (listed.map PrivateShare.point) with
  | ok collected =>
    have hok := storeAll_perm (hlisted.symm.map _) hstoreListed
    rw [hstore] at hok
    cases hok
  | error found =>
    obtain ⟨index, hconflicts, rfl⟩ := conflicts_of_storeAll hstoreListed
    refine ⟨index, hconflicts.perm (hlisted.map _), ?_, fun heq => ?_⟩
    · have hne : listed ≠ [] := by
        rintro rfl
        cases hstoreListed
      have hgroup := fun share hshare => (hlistedShares share hshare).1
      rw [combine_ofShare_eq hsafe hne hlistedShares, storeAll_masked_shares hsafe hr hgroup,
        hstoreListed, Except.map, error_bind, lift_error, error_bind]
    · rw [heq, hstore] at hstoreListed
      exact Except.error.inj hstoreListed

/-- Contributions unmask a member as the key does that the shares combine to, in whatever order they
    are listed and whether or not the shares are on one polynomial. If there are too few shares,
    both ways refuse them with the same error; if two of them conflict, the contributions do so too
    unless the member is one, and the first conflict is the same if they are listed in the same
    order. So wherever there is a key, the shares decrypt every well-formed ciphertext to what the
    key does. -/
theorem unmasking_with_shares_eq_with_key :
    (∀ value, group.isMember value = true →
      ∃ parts, listed.mapM (·.partialUnmask value) = .ok parts ∧
        (∀ key, DecryptionKey.combine shares = .ok key → ∃ mask, key.unmask value = .ok mask ∧
          PartialDecryption.combine group parts = .ok mask) ∧
        (∀ present needed,
          DecryptionKey.combine shares = .error (.refused (.notEnoughShares present needed)) →
          PartialDecryption.combine group parts =
            .error (.refused (.notEnoughShares present needed))) ∧
        (value ≠ 1 → ∀ index,
          DecryptionKey.combine shares = .error (.refused (.duplicateAuthority index)) →
          ∃ other, Conflicts (shares.map PrivateShare.point) other ∧
            PartialDecryption.combine group parts =
              .error (.refused (.duplicateAuthority other.toNat)) ∧
            (listed = shares → other.toNat = index))) ∧
    ∀ key, DecryptionKey.combine shares = .ok key →
      ∀ ciphertext : Ciphertext, ciphertext.isWellFormed group = true →
        ∃ parts, listed.mapM (ciphertext.partialDecrypt ·) = .ok parts ∧
          ∀ bound, ciphertext.decryptWithPartials group parts bound =
            ciphertext.decrypt key bound := by
  have hgroup : ∀ share ∈ listed, share.group = group :=
    fun share hshare => (hshares share (hlisted.mem_iff.1 hshare)).1
  constructor
  · intro value hmember
    obtain ⟨r, _, rfl⟩ := Group.exists_powG_eq hsafe hmember
    refine ⟨_, PrivateShare.mapM_partialUnmask hgroup, fun key hcombine => ?_,
      fun present needed hcombine => ?_, fun hmasked index hcombine => ?_⟩
    · exact PartialDecryption.exists_mask_of_combine hsafe hshares hlisted hcombine
    · exact PartialDecryption.combine_ofShare_perm hsafe hshares hlisted hcombine (by simp)
        (by simp)
    · have hr : (r : ZMod group.q) ≠ 0 := mt (Group.powG_eq_one_iff hsafe).2 hmasked
      obtain ⟨other, hconflicts, hrefused, hsame⟩ :=
        PartialDecryption.combine_ofShare_of_conflict hsafe hshares hlisted hr
          (DecryptionKey.storeAll_of_combine hshares hcombine)
      refine ⟨other, hconflicts, hrefused, fun heq => ?_⟩
      exact (Error.duplicateAuthority.inj (hsame heq)).symm
  · intro key hcombine ciphertext hformed
    obtain ⟨r, d, rfl⟩ := Ciphertext.exists_eq_powG hsafe hformed
    have hkey : key.group = group :=
      DecryptionKey.group_of_combine (fun share hshare => (hshares share hshare).1) hcombine
    refine ⟨_, (Ciphertext.mapM_partialDecrypt hgroup hformed).trans
      (PrivateShare.mapM_partialUnmask hgroup), fun bound => ?_⟩
    obtain ⟨mask, hunmask, hmask⟩ :=
      PartialDecryption.exists_mask_of_combine hsafe hshares hlisted hcombine
    exact Ciphertext.decryptWithPartials_eq hkey (hmask.trans hunmask.symm) bound

end Unmasking

/-- Shares of the group of order 11, two of which suffice. -/
def sharesAt (points : List (UInt64 × Nat)) : List PrivateShare :=
  points.filterMap fun point => (PrivateShare.new Group.small point.1 2 point.2).toOption

/-- Three shares that are not on one line, one of them twice, and listed the other way round. Of the
    conflicting ones two indices come with two values each. -/
theorem unmasking_with_shares_eq_with_key_small :
    let shares := sharesAt [(3, 7), (1, 4), (3, 7), (2, 9)]
    let conflicting := sharesAt [(3, 7), (1, 4), (3, 8), (1, 5)]
    Group.small.IsSafe ∧ Group.small.isMember 9 = true ∧
      (∀ share ∈ shares ++ conflicting, share.group = .small ∧ share.threshold = 2) ∧
      shares.reverse.Perm shares ∧ conflicting.reverse.Perm conflicting ∧
      (∃ parts mask, shares.reverse.mapM (·.partialUnmask 9) = .ok parts ∧
        DecryptionKey.combine shares = .ok ⟨.small, 10⟩ ∧
        DecryptionKey.unmask ⟨.small, 10⟩ 9 = .ok mask ∧
        PartialDecryption.combine .small parts = .ok mask) ∧
      ∃ parts index, conflicting.reverse.mapM (·.partialUnmask 9) = .ok parts ∧
        DecryptionKey.combine conflicting = .error (.refused (.duplicateAuthority 3)) ∧
        Conflicts (conflicting.map PrivateShare.point) index ∧
        PartialDecryption.combine .small parts =
          .error (.refused (.duplicateAuthority index.toNat)) := by
  intro shares conflicting
  have hsafe := Group.small_isSafe
  have hmember : Group.small.isMember 9 = true := by decide
  have hshares : ∀ share ∈ shares ++ conflicting, share.group = .small ∧ share.threshold = 2 := by
    decide
  obtain ⟨hfit, hconflict⟩ := List.forall_mem_append.1 hshares
  have hcombine : DecryptionKey.combine shares = .ok ⟨.small, 10⟩ := by decide +kernel
  have hrefused : DecryptionKey.combine conflicting =
      .error (.refused (.duplicateAuthority 3)) := by
    decide +kernel
  have hperm := shares.reverse_perm
  have hpermConflicting := conflicting.reverse_perm
  obtain ⟨hvalues, _⟩ := unmasking_with_shares_eq_with_key hsafe hfit hperm
  obtain ⟨parts, hparts, hkey, _, _⟩ := hvalues 9 hmember
  obtain ⟨mask, hunmask, hmask⟩ := hkey _ hcombine
  obtain ⟨hvaluesConflicting, _⟩ :=
    unmasking_with_shares_eq_with_key hsafe hconflict hpermConflicting
  obtain ⟨others, hothers, _, _, hduplicate⟩ := hvaluesConflicting 9 hmember
  obtain ⟨index, hindex, herror, _⟩ := hduplicate (by decide) 3 hrefused
  exact ⟨hsafe, hmember, hshares, hperm, hpermConflicting,
    ⟨parts, mask, hparts, hcombine, hunmask, hmask⟩,
    ⟨others, index, hothers, hrefused, hindex, herror⟩⟩

end SecretBallot
