import Mathlib
import SecretBallot.Key.Private
import SecretBallot.Proofs.Dict
import SecretBallot.Proofs.Group.Products
import SecretBallot.Proofs.Sharing.Collecting
import SecretBallot.Proofs.Sharing.Lagrange

section

open Polynomial

namespace SecretBallot

namespace PublicKey

variable {group : Group}

theorem collectShare_eq_ok_iff {collected result : Dict UInt64 Nat} {share : PublicShare} :
    collectShare group collected share = .ok result ↔
      (group.isGenerator share.h = true ∧ collected.get? share.index = none) ∧
        result = collected.insert share.index share.h := by
  simp only [collectShare, bind_eq_ok_iff, ensure_eq_ok_iff, Dict.not_contains_iff, pure,
    Except.pure, Except.ok.injEq]
  constructor
  · rintro ⟨_, hgenerator, _, hnew, rfl⟩
    exact ⟨⟨hgenerator, hnew⟩, rfl⟩
  · rintro ⟨⟨hgenerator, hnew⟩, rfl⟩
    exact ⟨(), hgenerator, (), hnew, rfl⟩

/-- Collected shares are generators from distinct authorities. -/
theorem of_foldlM_collectShare {shares : List PublicShare} {collected result : Dict UInt64 Nat}
    (hcollect : shares.foldlM (collectShare group) collected = .ok result) :
    (∀ share ∈ shares, group.isGenerator share.h = true ∧ collected.get? share.index = none) ∧
      (shares.map (·.index)).Nodup ∧
      result.values.Perm (collected.values ++ shares.map (·.h)) := by
  induction shares generalizing collected with
  | nil =>
    cases hcollect
    exact ⟨by simp, List.nodup_nil, by rw [List.map_nil, List.append_nil]⟩
  | cons share rest ih =>
    rw [List.foldlM_cons] at hcollect
    obtain ⟨between, hshare, hrest⟩ := bind_eq_ok_iff.1 hcollect
    obtain ⟨hhead, rfl⟩ := collectShare_eq_ok_iff.1 hshare
    obtain ⟨hshares, hnodup, hperm⟩ := ih hrest
    have hnew : ∀ other ∈ rest, other.index ≠ share.index ∧
        collected.get? other.index = none := by
      intro other hother
      have habsent := (hshares other hother).2
      rw [Dict.get?_insert] at habsent
      by_cases hindex : other.index = share.index
      · rw [if_pos hindex] at habsent
        cases habsent
      · rw [if_neg hindex] at habsent
        exact ⟨hindex, habsent⟩
    refine ⟨List.forall_mem_cons.2 ⟨hhead, fun other hother =>
      ⟨(hshares other hother).1, (hnew other hother).2⟩⟩, ?_, ?_⟩
    · rw [List.map_cons, List.nodup_cons]
      refine ⟨fun hmem => ?_, hnodup⟩
      obtain ⟨other, hother, hindex⟩ := List.mem_map.1 hmem
      exact (hnew other hother).1 hindex
    · refine hperm.trans ?_
      rw [List.map_cons]
      exact ((Dict.values_insert_perm share.h hhead.2).append_right _).trans
        List.perm_middle.symm

theorem exists_foldlM_collectShare {shares : List PublicShare} {collected : Dict UInt64 Nat}
    (hshares : ∀ share ∈ shares,
      group.isGenerator share.h = true ∧ collected.get? share.index = none)
    (hnodup : (shares.map (·.index)).Nodup) :
    ∃ result, shares.foldlM (collectShare group) collected = .ok result := by
  induction shares generalizing collected with
  | nil => exact ⟨collected, rfl⟩
  | cons share rest ih =>
    obtain ⟨hhead, hrest⟩ := List.forall_mem_cons.1 hshares
    rw [List.map_cons, List.nodup_cons] at hnodup
    have hnext : ∀ other ∈ rest, group.isGenerator other.h = true ∧
        (collected.insert share.index share.h).get? other.index = none := by
      intro other hother
      have hindex : other.index ≠ share.index := fun heq =>
        hnodup.1 (heq ▸ List.mem_map_of_mem hother)
      rw [Dict.get?_insert, if_neg hindex]
      exact hrest other hother
    obtain ⟨result, hresult⟩ := ih hnext hnodup.2
    refine ⟨result, ?_⟩
    rw [List.foldlM_cons, collectShare_eq_ok_iff.2 ⟨hhead, rfl⟩]
    exact hresult

/-- Generators from distinct authorities are multiplied. -/
theorem combine_eq {shares : List PublicShare} (hne : shares ≠ []) (f : Nat)
    (hshares : ∀ share ∈ shares, group.isGenerator share.h = true)
    (hnodup : (shares.map (·.index)).Nodup) :
    combine group f shares = new group f (group.product (shares.map (·.h))) := by
  obtain ⟨result, hresult⟩ := exists_foldlM_collectShare
    (fun share hshare => ⟨hshares share hshare, Dict.get?_empty _⟩) hnodup
  have hperm : result.values.Perm (shares.map (·.h)) := (of_foldlM_collectShare hresult).2.2
  rw [combine, ensure_of _ hne, hresult, ← group.product_perm hperm]
  rfl

theorem new_eq_ok {f h : Nat} {key : PublicKey} (hnew : new group f h = .ok key) :
    key.group = group ∧ key.f = f ∧ key.h = h := by
  rw [new] at hnew
  by_cases hf : group.isGenerator f = true
  · rw [dif_pos hf] at hnew
    by_cases hh : group.isGenerator h = true
    · rw [dif_pos hh] at hnew
      cases hnew
      exact ⟨rfl, rfl, rfl⟩
    · rw [dif_neg hh] at hnew
      cases hnew
  · rw [dif_neg hf] at hnew
    cases hnew

/-- A combined key is the product of generators from distinct authorities. -/
theorem of_combine_eq_ok {f : Nat} {shares : List PublicShare} {key : PublicKey}
    (hcombine : combine group f shares = .ok key) :
    (shares.map (·.index)).Nodup ∧ key.group = group ∧
      key.h = group.product (shares.map (·.h)) := by
  rw [combine] at hcombine
  obtain ⟨_, _, hcombine⟩ := bind_eq_ok_iff.1 hcombine
  obtain ⟨result, hresult, hnew⟩ := bind_eq_ok_iff.1 hcombine
  obtain ⟨_, hnodup, hperm⟩ := of_foldlM_collectShare hresult
  obtain ⟨hgroup, _, hh⟩ := new_eq_ok hnew
  have hproduct : group.product result.values = group.product (shares.map (·.h)) :=
    group.product_perm hperm
  exact ⟨hnodup, hgroup, hh.trans hproduct⟩

end PublicKey

/-- The point that a share is. -/
def PrivateShare.point (share : PrivateShare) : UInt64 × Nat :=
  (share.index, share.value)

/-- A private share is a point on a polynomial. -/
structure PrivateShare.IsPoint (share : PrivateShare) (group : Group) (threshold : UInt64)
    (f : (ZMod group.q)[X]) : Prop where
  group_eq : share.group = group
  threshold_eq : share.threshold = threshold
  value_eq : (share.value : ZMod group.q) = f.eval (share.index.toNat : ZMod group.q)

theorem PrivateShare.IsPoint.sameElection {share : PrivateShare} {group : Group}
    {threshold : UInt64} {f : (ZMod group.q)[X]} (hpoint : share.IsPoint group threshold f) :
    share.group = group ∧ share.threshold = threshold :=
  ⟨hpoint.group_eq, hpoint.threshold_eq⟩

namespace DecryptionKey

variable {group : Group} {threshold : UInt64} {f : (ZMod group.q)[X]}

theorem collectShare_eq_ok_iff {collected result : Dict UInt64 Nat} {share : PrivateShare} :
    collectShare group threshold collected share = .ok result ↔
      (share.group = group ∧ share.threshold = threshold) ∧
        (∀ found, collected.get? share.index = some found → found = share.value) ∧
          result = collected.insert share.index share.value := by
  simp only [collectShare, bind_eq_ok_iff, ensure_eq_ok_iff, storePoint_eq_ok_iff]
  constructor
  · rintro ⟨_, hshare, hstore⟩
    exact ⟨hshare, hstore⟩
  · rintro ⟨hshare, hstore⟩
    exact ⟨(), hshare, hstore⟩

theorem forall_of_foldlM_collectShare {shares : List PrivateShare}
    {collected result : Dict UInt64 Nat}
    (hcollect : shares.foldlM (collectShare group threshold) collected = .ok result) :
    ∀ share ∈ shares, share.group = group ∧ share.threshold = threshold :=
  forall_mem_of_foldlM (fun _ _ _ hshare => (collectShare_eq_ok_iff.1 hshare).1) hcollect

/-- Of shares of one election the points are stored. -/
theorem foldlM_collectShare_eq {shares : List PrivateShare}
    (hshares : ∀ share ∈ shares, share.group = group ∧ share.threshold = threshold)
    (collected : Dict UInt64 Nat) : shares.foldlM (collectShare group threshold) collected =
      storeAll collected (shares.map PrivateShare.point) := by
  induction shares generalizing collected with
  | nil => rfl
  | cons share rest ih =>
    obtain ⟨hshare, hrest⟩ := List.forall_mem_cons.1 hshares
    rw [List.foldlM_cons, List.map_cons, storeAll_cons, collectShare, ensure_of _ hshare]
    exact bind_congr fun collected => ih hrest collected

/-- A key is interpolated between the lowest points that were stored. -/
theorem combine_eq {shares : List PrivateShare} (hne : shares ≠ [])
    (hshares : ∀ share ∈ shares, share.group = group ∧ share.threshold = threshold) :
    combine shares = (do
      let lowest ← (liftM (storeAll ∅ (shares.map PrivateShare.point) >>= lowestPoints threshold) :
        Outcome (List (Nat × Nat)))
      let x ← group.interpolate lowest
      pure ⟨group, x⟩) := by
  cases shares with
  | nil => exact absurd rfl hne
  | cons first rest =>
    obtain ⟨hgroup, hthreshold⟩ := hshares first List.mem_cons_self
    rw [combine, points, hgroup, hthreshold, foldlM_collectShare_eq hshares]

/-- The points collected so far lie on a polynomial. -/
structure OnPolynomial (collected : Dict UInt64 Nat) (f : (ZMod group.q)[X]) : Prop where
  index_lt_q : ∀ index value, collected.get? index = some value → index.toNat < group.q
  value_lt_q : ∀ index value, collected.get? index = some value → value < group.q
  value_eq : ∀ index value, collected.get? index = some value →
    (value : ZMod group.q) = f.eval (index.toNat : ZMod group.q)

/-- What is collected from shares on a polynomial: as many points as there are distinct indices. -/
theorem exists_collected {shares : List PrivateShare}
    (hshares : ∀ share ∈ shares, share.IsPoint group threshold f) :
    ∃ collected, shares.foldlM (collectShare group threshold) ∅ = .ok collected ∧
      OnPolynomial collected f ∧ collected.size = (shares.map (·.index)).toFinset.card := by
  have hpoints : ∀ point ∈ shares.map PrivateShare.point, point.1.toNat < group.q ∧
      point.2 < group.q ∧ (point.2 : ZMod group.q) = f.eval (point.1.toNat : ZMod group.q) := by
    refine List.forall_mem_map.2 fun share hshare => ?_
    have hpoint := hshares share hshare
    exact ⟨hpoint.group_eq ▸ share.index_lt_q, hpoint.group_eq ▸ share.value_lt_q, hpoint.value_eq⟩
  rw [foldlM_collectShare_eq fun share hshare => (hshares share hshare).sameElection]
  cases hstore : storeAll ∅ (shares.map PrivateShare.point) with
  | error error =>
    -- Two values under one index would be one value of the polynomial.
    obtain ⟨index, ⟨value, other, hne, hvalue, hother⟩, _⟩ := conflicts_of_storeAll hstore
    obtain ⟨_, hlt, hcast⟩ := hpoints _ hvalue
    obtain ⟨_, hltOther, hcastOther⟩ := hpoints _ hother
    exact absurd (group.eq_of_castQ_eq hlt hltOther (hcast.trans hcastOther.symm)) hne
  | ok collected =>
    have hget : ∀ index value, collected.get? index = some value ↔
        (index, value) ∈ shares.map PrivateShare.point := by
      simpa using storeAll_eq_ok_iff.1 hstore
    refine ⟨collected, rfl, ⟨?_, ?_, ?_⟩, ?_⟩
    · exact fun index value hfound => (hpoints _ ((hget index value).1 hfound)).1
    · exact fun index value hfound => (hpoints _ ((hget index value).1 hfound)).2.1
    · exact fun index value hfound => (hpoints _ ((hget index value).1 hfound)).2.2
    · have hindices : collected.keys.toFinset = (shares.map (·.index)).toFinset := by
        ext index
        simp [Dict.mem_keys_iff, hget, PrivateShare.point]
      rw [← hindices, List.toFinset_card_of_nodup collected.keys_nodup, Dict.length_keys]

/-- Enough shares on a polynomial give its value at zero. -/
theorem combine_of_le (hsafe : group.IsSafe) {shares : List PrivateShare} (hne : shares ≠ [])
    (hshares : ∀ share ∈ shares, share.IsPoint group threshold f)
    (hdegree : f.degree < (threshold.toNat : WithBot Nat))
    (hcount : threshold.toNat ≤ (shares.map (·.index)).toFinset.card) :
    ∃ x, combine shares = .ok ⟨group, x⟩ ∧ (x : ZMod group.q) = f.eval 0 := by
  have helection := fun share hshare => (hshares share hshare).sameElection
  obtain ⟨collected, hcollected, hpoints, hsize⟩ := exists_collected hshares
  rw [foldlM_collectShare_eq helection] at hcollected
  rw [← hsize] at hcount
  set lowest := (collected.entries.take threshold.toNat).map fun entry =>
    (entry.1.toNat, entry.2) with hlowest
  have hmem : ∀ point ∈ lowest, ∃ index, collected.get? index = some point.2 ∧
      point.1 = index.toNat := by
    intro point hpoint
    obtain ⟨entry, hentry, rfl⟩ := List.mem_map.1 hpoint
    exact ⟨entry.1, Dict.get?_eq_some_iff.2 (List.mem_of_mem_take hentry), rfl⟩
  have hnodup : (lowest.map (·.1)).Nodup := by
    have hkeys : (collected.entries.take threshold.toNat).map (·.1) =
        collected.keys.take threshold.toNat := List.map_take.symm ▸ rfl
    have hmap : lowest.map (·.1) = (collected.keys.take threshold.toNat).map UInt64.toNat := by
      rw [hlowest, List.map_map, ← hkeys, List.map_map]
      rfl
    rw [hmap]
    exact (collected.keys_nodup.sublist (List.take_sublist _ _)).map fun a b hab =>
      UInt64.toNat_inj.1 hab
  have hlength : lowest.length = threshold.toNat := by
    rw [hlowest, List.length_map, List.length_take]
    exact Nat.min_eq_left hcount
  obtain ⟨x, _, hx, heval⟩ := group.interpolate_eq hsafe hnodup
    (fun point hpoint => by
      obtain ⟨index, hget, hindex⟩ := hmem point hpoint
      exact hindex ▸ hpoints.index_lt_q index point.2 hget)
    (hlength ▸ hdegree)
    (fun point hpoint => by
      obtain ⟨index, hget, hindex⟩ := hmem point hpoint
      exact hindex ▸ hpoints.value_eq index point.2 hget)
  refine ⟨x, ?_, heval⟩
  rw [combine_eq hne helection, hcollected, ok_bind, lowestPoints_of_le hcount, lift_ok, ok_bind,
    hx]
  apply ok_bind

/-- Such a key fits the public key whose element is `g` to the value at zero. -/
theorem combine_fits (hsafe : group.IsSafe) {shares : List PrivateShare} (hne : shares ≠ [])
    (hshares : ∀ share ∈ shares, share.IsPoint group threshold f)
    (hdegree : f.degree < (threshold.toNat : WithBot Nat))
    (hcount : threshold.toNat ≤ (shares.map (·.index)).toFinset.card) {publicKey : PublicKey}
    (hgroup : publicKey.group = group) {secret : Nat} (hh : publicKey.h = group.powG secret)
    (hsecret : (secret : ZMod group.q) = f.eval 0) :
    ∃ key, combine shares = .ok key ∧ key.fits publicKey = true := by
  obtain ⟨x, hcombine, hx⟩ := combine_of_le hsafe hne hshares hdegree hcount
  refine ⟨_, hcombine, ?_⟩
  have hpower : group.powG x = publicKey.h := by
    rw [hh, Group.powG_eq_powG_iff hsafe, hx, hsecret]
  rw [fits, hgroup, hpower, beq_self_eq_true, beq_self_eq_true, Bool.and_true]

/-- Too few distinct shares are refused. -/
theorem combine_of_lt {shares : List PrivateShare} (hne : shares ≠ [])
    (hshares : ∀ share ∈ shares, share.IsPoint group threshold f)
    (hcount : (shares.map (·.index)).toFinset.card < threshold.toNat) :
    combine shares = .error (.refused
      (.notEnoughShares (shares.map (·.index)).toFinset.card threshold.toNat)) := by
  have helection := fun share hshare => (hshares share hshare).sameElection
  obtain ⟨collected, hcollected, _, hsize⟩ := exists_collected hshares
  rw [foldlM_collectShare_eq helection] at hcollected
  rw [← hsize] at hcount ⊢
  rw [combine_eq hne helection, hcollected, ok_bind, lowestPoints_of_lt hcount, lift_error,
    error_bind]

end DecryptionKey

end SecretBallot

end
