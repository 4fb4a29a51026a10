import Mathlib
import SecretBallot.Proofs.Ceremony.Authority

section

open Polynomial

namespace SecretBallot

namespace Authority

variable {group : Group} {n t : UInt64}

/-- An authority after some deliveries, those that it rejected among them. -/
def afterDeliveries (authority : Authority) (deliveries : List (SecretShare × Commitment)) :
    Authority :=
  deliveries.foldl (fun current delivery => (receive delivery.1 delivery.2 current).2) authority

/-- One of the deliveries was accepted when it came. -/
def Accepted (authority : Authority) (deliveries : List (SecretShare × Commitment))
    (share : SecretShare) (commitment : Commitment) : Prop :=
  ∃ before after, deliveries = before ++ (share, commitment) :: after ∧
    (receive share commitment (authority.afterDeliveries before)).1 = .ok ()

/-- What every accepted delivery keeps is kept by all deliveries. -/
theorem afterDeliveries_preserves (good : Authority → Prop)
    (hstore : ∀ authority share commitment, good authority →
      authority.Accepts share commitment → good (authority.store share commitment))
    {authority : Authority} (hgood : good authority)
    (deliveries : List (SecretShare × Commitment)) :
    good (authority.afterDeliveries deliveries) := by
  induction deliveries generalizing authority with
  | nil => exact hgood
  | cons delivery rest ih =>
    change good ((receive delivery.1 delivery.2 authority).2.afterDeliveries rest)
    rcases receive_cases delivery.1 delivery.2 authority with ⟨haccepts, hrun⟩ | ⟨_, _, hrun⟩
    · rw [hrun]
      exact ih (hstore _ _ _ hgood haccepts)
    · rw [hrun]
      exact ih hgood

theorem sameSetup_afterDeliveries (authority : Authority)
    (deliveries : List (SecretShare × Commitment)) :
    (authority.afterDeliveries deliveries).SameSetup authority := by
  refine afterDeliveries_preserves (·.SameSetup authority) ?_ (.refl authority) deliveries
  intro current share commitment hsetup _
  exact hsetup.store share commitment

theorem Holds.afterDeliveries {authority : Authority} {dealer : UInt64} {value h : Nat}
    (hholds : authority.Holds dealer value h) (deliveries : List (SecretShare × Commitment)) :
    (authority.afterDeliveries deliveries).Holds dealer value h := by
  refine afterDeliveries_preserves (·.Holds dealer value h) ?_ hholds deliveries
  intro current share commitment hcurrent haccepts
  exact hcurrent.store haccepts

namespace Accepted

variable {start : Authority} {deliveries : List (SecretShare × Commitment)}
variable {share : SecretShare} {commitment : Commitment}

/-- The state in which the delivery was accepted, and the run from there on. -/
theorem exists_ready (haccepted : start.Accepted deliveries share commitment) :
    ∃ ready after, Authority.SameSetup ready start ∧ ready.Accepts share commitment ∧
      start.afterDeliveries deliveries =
        (ready.store share commitment).afterDeliveries after := by
  obtain ⟨before, after, rfl, hok⟩ := haccepted
  refine ⟨start.afterDeliveries before, after, sameSetup_afterDeliveries start before, ?_⟩
  rcases receive_cases share commitment (start.afterDeliveries before) with
    ⟨haccepts, hrun⟩ | ⟨_, failure, hrun⟩
  · refine ⟨haccepts, ?_⟩
    rw [Authority.afterDeliveries, List.foldl_append, List.foldl_cons]
    change ((receive share commitment (start.afterDeliveries before)).2).afterDeliveries after = _
    rw [hrun]
  · rw [hrun] at hok
    cases hok

variable {index : UInt64}

theorem length_elements (haccepted : start.Accepted deliveries share commitment)
    (hfresh : start.Fresh group n t index) : commitment.elements.length = t.toNat := by
  obtain ⟨ready, _, hsetup, haccepts, _⟩ := haccepted.exists_ready
  rw [haccepts.size, hsetup.t_eq, hfresh.t_eq]

theorem verifyShare_eq (haccepted : start.Accepted deliveries share commitment)
    (hfresh : start.Fresh group n t index) :
    commitment.verifyShare group index.toNat share.value = .ok true := by
  obtain ⟨ready, _, hsetup, haccepts, _⟩ := haccepted.exists_ready
  rw [← haccepts.verifies, hsetup.group_eq, hsetup.index_eq, hfresh.group_eq, hfresh.index_eq]

/-- What was accepted once is there at the end. -/
theorem holds (haccepted : start.Accepted deliveries share commitment)
    (hfresh : start.Fresh group n t index) {h : Nat} (hpublic : commitment.publicShare = some h) :
    (start.afterDeliveries deliveries).Holds share.dealer share.value h := by
  obtain ⟨ready, after, hsetup, haccepts, hrun⟩ := haccepted.exists_ready
  rw [hrun]
  exact (holds_store hsetup hfresh haccepts hpublic).afterDeliveries after

end Accepted

/-- A public key from public shares that pass is the product of the dealers' public shares: they
    come from distinct dealers, or they would not combine, and so from each of them. -/
theorem Complete.publicKey_eq {authority : Authority} {f : UInt64 → (ZMod group.q)[X]}
    {h : UInt64 → Nat} (hcomplete : authority.Complete group n t f h)
    {published : List PublicShare} (hcheck : authority.checkPublicShares published = .ok ())
    {generator : Nat} {publicKey : PublicKey}
    (hcombine : PublicKey.combine group generator published = .ok publicKey) :
    publicKey.group = group ∧ publicKey.h = group.product ((authorityIndices n).map h) := by
  rw [hcomplete.checkPublicShares_eq_ok_iff] at hcheck
  obtain ⟨hlength, hpublished⟩ := hcheck
  obtain ⟨hnodup, hgroup, hh⟩ := PublicKey.of_combine_eq_ok hcombine
  have hsubset : published.map (·.index) ⊆ authorityIndices n := by
    intro index hindex
    obtain ⟨share, hshare, rfl⟩ := List.mem_map.1 hindex
    exact (hpublished share hshare).1
  have hperm : (published.map (·.index)).Perm (authorityIndices n) := by
    apply (hnodup.subperm hsubset).perm_of_length_le
    rw [length_authorityIndices, List.length_map, hlength]
  refine ⟨hgroup, ?_⟩
  rw [hh, ← group.product_perm (hperm.map h), List.map_map]
  congr 1
  exact List.map_congr_left fun share hshare => (hpublished share hshare).2

end Authority

namespace Ceremony

variable {group : Group} {n t : UInt64}
variable {commitment : UInt64 → Commitment} {members : List Authority}
variable {deliveries : Authority → List (SecretShare × Commitment)}

/-- Authorities that do not have to trust the others: at least `t` of them, created as they should
    be, each of whom committed to its own polynomial and accepted a share under the commitment of
    every other dealer. Nothing is known of those dealers, nor of what else was delivered. -/
structure Served (group : Group) (n t : UInt64) (commitment : UInt64 → Commitment)
    (members : List Authority) (deliveries : Authority → List (SecretShare × Commitment)) :
    Prop where
  created : ∀ authority ∈ members, ∃ index supply rest,
    Authority.new group n t index supply = (.ok authority, rest)
  nodup : (members.map (·.index)).Nodup
  enough : t.toNat ≤ members.length
  own : ∀ authority ∈ members, commitment authority.index = authority.publish.1
  accepted : ∀ authority ∈ members, ∀ dealer ∈ authorityIndices n, dealer ≠ authority.index →
    ∃ share, share.dealer = dealer ∧
      authority.Accepted (deliveries authority) share (commitment dealer)

namespace Served

theorem fresh (hserved : Served group n t commitment members deliveries) {authority : Authority}
    (hmem : authority ∈ members) : authority.Fresh group n t authority.index := by
  obtain ⟨index, supply, rest, hnew⟩ := hserved.created authority hmem
  have hfresh := Authority.fresh_of_new hnew
  rw [hfresh.index_eq]
  exact hfresh

/-- Every commitment holds `t` powers of the generator: a member made it, or a member accepted a
    share under it. -/
theorem exists_powers (hsafe : group.IsSafe)
    (hserved : Served group n t commitment members deliveries) {authority : Authority}
    (hmem : authority ∈ members) {dealer : UInt64} (hdealer : dealer ∈ authorityIndices n) :
    ∃ (secret : Nat) (others : List Nat),
      commitment dealer = ⟨(secret :: others).map group.powG⟩ ∧
        (secret :: others).length = t.toNat := by
  have hfresh := hserved.fresh hmem
  by_cases hown : dealer = authority.index
  · obtain ⟨others, hcoefficients, _⟩ := hfresh.coefficients
    refine ⟨authority.key.x, others, ?_, ?_⟩
    · rw [hown, hserved.own authority hmem, Authority.publish, Polynomial.commit, hcoefficients,
        hfresh.group_eq]
    · rw [← hcoefficients, hfresh.length_coefficients]
  · obtain ⟨share, _, haccepted⟩ := hserved.accepted authority hmem dealer hdealer hown
    have hlength := haccepted.length_elements hfresh
    obtain ⟨exps, hexps⟩ := Group.exists_map_powG_eq hsafe
      (Commitment.isMember_of_verifyShare (haccepted.verifyShare_eq hfresh))
    rw [← hexps, List.length_map] at hlength
    cases exps with
    | nil => exact absurd hlength.symm hfresh.t_toNat_ne_zero
    | cons secret others =>
      refine ⟨secret, others, ?_, hlength⟩
      rw [hexps]

/-- The deliveries leave every member with a share from every dealer, a point on the polynomial that
    the dealer committed to. -/
theorem complete (hsafe : group.IsSafe) (hserved : Served group n t commitment members deliveries)
    {secret : UInt64 → Nat} {others : UInt64 → List Nat}
    (hpowers : ∀ dealer ∈ authorityIndices n,
      commitment dealer = ⟨(secret dealer :: others dealer).map group.powG⟩)
    {authority : Authority} (hmem : authority ∈ members) :
    (authority.afterDeliveries (deliveries authority)).Complete group n t
      (fun dealer => group.polynomial (secret dealer :: others dealer))
      (fun dealer => group.powG (secret dealer)) := by
  have hfresh := hserved.fresh hmem
  apply Authority.complete_of_holds (authority.sameSetup_afterDeliveries _) hfresh
  intro dealer hdealer
  by_cases hown : dealer = authority.index
  · -- the member's own share is there from the start
    obtain ⟨coefficients, hcoefficients, _⟩ := hfresh.coefficients
    have hcommitment : (secret dealer :: others dealer).map group.powG =
        authority.polynomial.coefficients.map group.powG := by
      have hsame := (hpowers dealer hdealer).symm.trans (hown ▸ hserved.own authority hmem)
      rw [Authority.publish, Polynomial.commit, hfresh.group_eq] at hsame
      exact Commitment.mk.inj hsame
    have hh : group.powG (secret dealer) = authority.key.h := by
      rw [hcoefficients, List.map_cons, List.map_cons, List.cons.injEq] at hcommitment
      rw [hcommitment.1, hfresh.key_h]
    refine ⟨_, (hh ▸ hown ▸ hfresh.holds).afterDeliveries _, ?_⟩
    rw [Polynomial.cast_evaluate, Group.polynomial_congr hsafe hcommitment, hown]
  · obtain ⟨share, rfl, haccepted⟩ := hserved.accepted authority hmem dealer hdealer hown
    have hpublic : (commitment share.dealer).publicShare =
        some (group.powG (secret share.dealer)) := by
      rw [hpowers _ hdealer]
      rfl
    refine ⟨share.value, haccepted.holds hfresh hpublic, ?_⟩
    have hverify := haccepted.verifyShare_eq hfresh
    rw [hpowers _ hdealer, Commitment.verifyShare_map_powG hsafe, Except.ok.injEq] at hverify
    exact of_decide_eq_true hverify

/-- All members finish with a point on the sum of the polynomials that were committed to. -/
theorem exists_shares (hsafe : group.IsSafe)
    (hserved : Served group n t commitment members deliveries)
    {secret : UInt64 → Nat} {others : UInt64 → List Nat}
    (hpowers : ∀ dealer ∈ authorityIndices n,
      commitment dealer = ⟨(secret dealer :: others dealer).map group.powG⟩) :
    ∃ shares, List.Forall₂ (fun authority share =>
      (authority.afterDeliveries (deliveries authority)).finish = .ok share ∧
        share.index = authority.index ∧
        share.IsPoint group t (((authorityIndices n).map fun dealer =>
          group.polynomial (secret dealer :: others dealer)).sum)) members shares := by
  apply exists_forall₂
  intro authority hmem
  exact (hserved.complete hsafe hpowers hmem).exists_share
    (authority.sameSetup_afterDeliveries _) (hserved.fresh hmem)

/-- Different shares of the members have different indices. -/
theorem nodup_indices (hserved : Served group n t commitment members deliveries)
    {shares chosen : List PrivateShare}
    (hshares : List.Forall₂ (fun authority share => share.index = authority.index) members shares)
    (hchosen : ∀ share ∈ chosen, share ∈ shares) (hdistinct : chosen.Nodup) :
    (chosen.map (·.index)).Nodup := by
  have hindices : shares.map (·.index) = members.map (·.index) := by
    rw [← List.forall₂_eq_eq_eq, List.forall₂_map_left_iff, List.forall₂_map_right_iff]
    exact hshares.flip
  refine hdistinct.map_on fun share hshare other hother => ?_
  exact List.inj_on_of_nodup_map (hindices ▸ hserved.nodup) (hchosen share hshare)
    (hchosen other hother)

end Served

/-- Whatever the other dealers did, all members finish. If a member lets a list of public shares
    pass and they combine to a public key, that key is the one that was committed to, and any `t`
    of the members' private shares give its private key. -/
theorem verifiable_sharing (hsafe : group.IsSafe)
    (hserved : Served group n t commitment members deliveries) :
    ∃ shares, List.Forall₂ (fun authority share =>
        (authority.afterDeliveries (deliveries authority)).finish = .ok share) members shares ∧
      ∀ checker ∈ members, ∀ (published : List PublicShare) (f : Nat) (publicKey : PublicKey),
        (checker.afterDeliveries (deliveries checker)).checkPublicShares published = .ok () →
        PublicKey.combine group f published = .ok publicKey →
          (∃ constants, (authorityIndices n).map (fun dealer => (commitment dealer).publicShare) =
              constants.map some ∧ publicKey.h = group.product constants) ∧
          ∀ chosen : List PrivateShare, (∀ share ∈ chosen, share ∈ shares) → chosen.Nodup →
            t.toNat ≤ chosen.length →
              ∃ key, DecryptionKey.combine chosen = .ok key ∧ key.fits publicKey = true := by
  by_cases hnone : ∃ authority, authority ∈ members
  case neg =>
    have hempty : members = [] := List.eq_nil_iff_forall_not_mem.2 (not_exists.1 hnone)
    rw [hempty]
    exact ⟨[], .nil, fun checker hmem => absurd hmem List.not_mem_nil⟩
  obtain ⟨authority, hmem⟩ := hnone
  have hpowers : ∀ dealer ∈ authorityIndices n, ∃ (secret : Nat) (others : List Nat),
      commitment dealer = ⟨(secret :: others).map group.powG⟩ ∧
        (secret :: others).length = t.toNat :=
    fun dealer hdealer => hserved.exists_powers hsafe hmem hdealer
  choose! secret others hpowers hlength using hpowers
  obtain ⟨shares, hshares⟩ := hserved.exists_shares hsafe hpowers
  refine ⟨shares, hshares.imp fun _ _ hshare => hshare.1, ?_⟩
  intro checker hchecker published f publicKey hcheck hcombine
  obtain ⟨hgroup, hh⟩ :=
    (hserved.complete hsafe hpowers hchecker).publicKey_eq hcheck hcombine
  refine ⟨⟨_, ?_, hh⟩, ?_⟩
  · rw [List.map_map]
    apply List.map_congr_left
    intro dealer hdealer
    rw [hpowers dealer hdealer]
    rfl
  · intro chosen hchosen hdistinct hcount
    have hne : chosen ≠ [] := by
      rintro rfl
      exact (hserved.fresh hmem).t_toNat_ne_zero (Nat.le_zero.1 hcount)
    have hcard : t.toNat ≤ (chosen.map (·.index)).toFinset.card := by
      have hindices := hserved.nodup_indices (hshares.imp fun _ _ hshare => hshare.2.1) hchosen
        hdistinct
      rw [List.toFinset_card_of_nodup hindices, List.length_map]
      exact hcount
    have hpoints : ∀ share ∈ chosen, share.IsPoint group t (((authorityIndices n).map fun dealer =>
        group.polynomial (secret dealer :: others dealer)).sum) := by
      intro share hshare
      obtain ⟨_, _, _, _, hpoint⟩ := exists_of_mem_of_forall₂ hshares (hchosen share hshare)
      exact hpoint
    have hdegree : ((authorityIndices n).map fun dealer =>
        group.polynomial (secret dealer :: others dealer)).sum.degree <
          (t.toNat : WithBot Nat) := by
      refine group.degree_sum_lt fun dealer hdealer => ?_
      rw [← hlength dealer hdealer]
      exact group.degree_polynomial_lt _
    have hpower : publicKey.h = group.powG ((authorityIndices n).map secret).sum := by
      rw [hh, ← Group.product_powG, List.map_map]
      rfl
    have hsecret := group.eval_zero_sum fun dealer (_ : dealer ∈ authorityIndices n) =>
      group.eval_zero_polynomial (secret dealer) (others dealer)
    exact DecryptionKey.combine_fits hsafe hne hpoints hdegree hcard hgroup hpower hsecret.symm

/-- Two of three authorities in the group of order 11. The third dealer is not among them. -/
def smallMembers : List Authority :=
  [⟨Group.small, 1, 3, 2, ⟨1, 3, 18⟩, ⟨[3, 5]⟩, [some 8, none, none], [some 18, none, none]⟩,
    ⟨Group.small, 2, 3, 2, ⟨2, 4, 3⟩, ⟨[4, 1]⟩, [none, some 6, none], [none, some 3, none]⟩]

def smallCommitment (dealer : UInt64) : Commitment :=
  if dealer = 1 then ⟨[18, 12]⟩ else if dealer = 2 then ⟨[3, 4]⟩ else ⟨[16, 8]⟩

/-- The second delivery to the first member is rejected, and the third dealer's shares are not
    reduced. -/
def smallDeliveries (authority : Authority) : List (SecretShare × Commitment) :=
  if authority.index = 1 then
    [(⟨3, 1, 20⟩, ⟨[16, 8]⟩), (⟨2, 1, 6⟩, ⟨[3, 4]⟩), (⟨2, 1, 5⟩, ⟨[3, 4]⟩)]
  else [(⟨1, 2, 2⟩, ⟨[18, 12]⟩), (⟨3, 2, 16⟩, ⟨[16, 8]⟩)]

theorem smallMembers_served :
    Served Group.small 3 2 smallCommitment smallMembers smallDeliveries := by
  refine ⟨?_, by decide, by decide, ?_, ?_⟩
  · rw [smallMembers, List.forall_mem_cons, List.forall_mem_singleton]
    exact ⟨⟨1, [3, 0, 5], [], rfl⟩, ⟨2, [4, 0, 1], [], rfl⟩⟩
  · rw [smallMembers, List.forall_mem_cons, List.forall_mem_singleton]
    exact ⟨rfl, rfl⟩
  · have hdealers : authorityIndices 3 = [1, 2, 3] := rfl
    rw [hdealers, smallMembers]
    simp only [List.forall_mem_cons]
    refine ⟨⟨fun hne => absurd rfl hne, fun _ => ?_, fun _ => ?_, List.forall_mem_nil _⟩,
      ⟨fun _ => ?_, fun hne => absurd rfl hne, fun _ => ?_, List.forall_mem_nil _⟩,
      List.forall_mem_nil _⟩
    · exact ⟨⟨2, 1, 5⟩, rfl, [(⟨3, 1, 20⟩, ⟨[16, 8]⟩), (⟨2, 1, 6⟩, ⟨[3, 4]⟩)], [], rfl, rfl⟩
    · exact ⟨⟨3, 1, 20⟩, rfl, [], _, rfl, rfl⟩
    · exact ⟨⟨1, 2, 2⟩, rfl, [], _, rfl, rfl⟩
    · exact ⟨⟨3, 2, 16⟩, rfl, [(⟨1, 2, 2⟩, ⟨[18, 12]⟩)], [], rfl, rfl⟩

theorem verifiable_sharing_smallMembers :
    ∃ (shares : List PrivateShare) (publicKey : PublicKey), shares.length = 2 ∧
      PublicKey.combine Group.small 2 [⟨3, 16⟩, ⟨1, 18⟩, ⟨2, 3⟩] = .ok publicKey ∧
      publicKey.h = 13 ∧
      ∀ chosen : List PrivateShare, (∀ share ∈ chosen, share ∈ shares) → chosen.Nodup →
        2 ≤ chosen.length →
          ∃ key, DecryptionKey.combine chosen = .ok key ∧ key.fits publicKey = true := by
  obtain ⟨shares, hshares, hcorrect⟩ := verifiable_sharing Group.small_isSafe smallMembers_served
  have hcheck : ((smallMembers.head (by decide)).afterDeliveries (smallDeliveries
      (smallMembers.head (by decide)))).checkPublicShares [⟨3, 16⟩, ⟨1, 18⟩, ⟨2, 3⟩] = .ok () :=
    rfl
  have hcombine : PublicKey.combine Group.small 2 [⟨3, 16⟩, ⟨1, 18⟩, ⟨2, 3⟩] =
      .ok ⟨Group.small, 2, 13, by decide +kernel, by decide +kernel⟩ :=
    rfl
  have hkey := hcorrect _ (List.head_mem _) _ _ _ hcheck hcombine
  exact ⟨shares, _, hshares.length_eq.symm, hcombine, rfl, hkey.2⟩

end Ceremony

end SecretBallot

end
