import Mathlib
import SecretBallot.Ceremony.Run
import SecretBallot.Proofs.Ceremony.Authority

section

open Polynomial

namespace SecretBallot

namespace Ceremony

variable {group : Group} {n t : UInt64}

/-- The authorities of one ceremony: fresh ones, one for each index. -/
structure Party (group : Group) (n t : UInt64) (party : List Authority) : Prop where
  fresh : ∀ authority ∈ party, authority.Fresh group n t authority.index
  indices : (party.map (·.index)).Perm (authorityIndices n)

theorem lastAuthorities_spec {count : Nat} (hcount : count ≤ n.toNat) {created : List Authority}
    {supply rest : Bytes} (hrun : lastAuthorities group n t count supply = (.ok created, rest)) :
    (∀ authority ∈ created, authority.Fresh group n t authority.index) ∧
      created.map (·.index) =
        (List.range' (n.toNat - count) count).map fun i => UInt64.ofNat (i + 1) := by
  induction count generalizing created supply rest with
  | zero =>
    rw [lastAuthorities, Action.pure_eq_ok_iff] at hrun
    rw [← hrun.1]
    exact ⟨List.forall_mem_nil _, rfl⟩
  | succ count ih =>
    rw [lastAuthorities] at hrun
    obtain ⟨first, _, hfirst, hrun⟩ := Action.bind_eq_ok_iff.1 hrun
    obtain ⟨others, _, hothers, hpure⟩ := Action.bind_eq_ok_iff.1 hrun
    rw [Action.pure_eq_ok_iff] at hpure
    obtain ⟨hfresh, hindices⟩ := ih (Nat.le_of_succ_le hcount) hothers
    have hhead := Authority.fresh_of_new hfirst
    have hindex : n - UInt64.ofNat count = UInt64.ofNat (n.toNat - (count + 1) + 1) := by
      have hlt := n.toNat_lt
      have hsmall : (UInt64.ofNat count).toNat = count :=
        UInt64.toNat_ofNat_of_lt' ((Nat.lt_of_succ_le hcount).trans hlt)
      have hle : UInt64.ofNat count ≤ n := by
        rw [UInt64.le_iff_toNat_le, hsmall]
        omega
      have hslot : n.toNat - (count + 1) < n.toNat := by omega
      rw [← UInt64.toNat_inj, UInt64.toNat_sub_of_le _ _ hle, hsmall, toNat_ofNat_succ hslot]
      omega
    rw [← hpure.1]
    refine ⟨List.forall_mem_cons.2 ⟨?_, hfresh⟩, ?_⟩
    · rw [hhead.index_eq]
      exact hhead
    · have hnext : n.toNat - (count + 1) + 1 = n.toNat - count := by omega
      rw [List.map_cons, hindices, hhead.index_eq, hindex, List.range'_succ, List.map_cons, hnext]

theorem party_of_authorities {created order : List Authority} {supply rest : Bytes}
    (hrun : authorities group n t supply = (.ok created, rest)) (horder : order.Perm created) :
    Party group n t order := by
  obtain ⟨hfresh, hindices⟩ := lastAuthorities_spec le_rfl hrun
  rw [Nat.sub_self, ← List.range_eq_range'] at hindices
  refine ⟨fun authority hmem => hfresh authority (horder.subset hmem), ?_⟩
  rw [authorityIndices, ← hindices]
  exact horder.map _

theorem Party.nodup {party : List Authority} (hparty : Party group n t party) :
    (party.map (·.index)).Nodup :=
  hparty.indices.nodup_iff.2 (nodup_authorityIndices n)

theorem Party.mem_indices {party : List Authority} (hparty : Party group n t party)
    {index : UInt64} : index ∈ party.map (·.index) ↔ index ∈ authorityIndices n :=
  hparty.indices.mem_iff

theorem Party.eq_of_index_eq {party : List Authority} (hparty : Party group n t party)
    {authority other : Authority} (hmem : authority ∈ party) (hother : other ∈ party)
    (hindex : authority.index = other.index) : authority = other :=
  List.inj_on_of_nodup_map hparty.nodup hmem hother hindex

section Deliveries

variable {party : List Authority} {now : Authority → Authority}

/-- Only the authority with the given index acts. -/
theorem onRecipient_map {next : Authority → Authority} {recipient : UInt64}
    {action : Action Authority Unit} (hnodup : (party.map (·.index)).Nodup)
    (hindex : ∀ authority ∈ party, (now authority).index = authority.index)
    (hpresent : recipient ∈ party.map (·.index))
    (haction : ∀ authority ∈ party, authority.index = recipient →
      action (now authority) = (.ok (), next authority)) :
    onRecipient recipient action (party.map now) = (.ok (), party.map fun authority =>
      if authority.index = recipient then next authority else now authority) := by
  induction party with
  | nil => exact absurd hpresent (List.not_mem_nil)
  | cons head tail ih =>
    rw [List.map_cons, List.nodup_cons] at hnodup
    obtain ⟨hhead, htail⟩ := List.forall_mem_cons.1 hindex
    obtain ⟨hact, hactions⟩ := List.forall_mem_cons.1 haction
    rw [List.map_cons, List.map_cons, onRecipient, hhead]
    by_cases hfound : head.index = recipient
    · have hrest : tail.map (fun authority =>
          if authority.index = recipient then next authority else now authority) =
            tail.map now := by
        apply List.map_congr_left
        intro authority hmem
        have hother : authority.index ≠ recipient := fun heq =>
          hnodup.1 (hfound.trans heq.symm ▸ List.mem_map_of_mem hmem)
        exact if_neg hother
      rw [if_pos hfound, if_pos hfound, hact hfound, hrest]
    · have hlater : recipient ∈ tail.map (·.index) := by
        rw [List.map_cons, List.mem_cons] at hpresent
        exact hpresent.resolve_left fun heq => hfound heq.symm
      rw [if_neg hfound, if_neg hfound, ih hnodup.2 htail hlater hactions]

/-- Shares that their recipients accept are all stored. -/
theorem forM_deliver {recipients : List UInt64} (share : UInt64 → SecretShare)
    {commitment : Commitment} (hnodup : (party.map (·.index)).Nodup)
    (hindex : ∀ authority ∈ party, (now authority).index = authority.index)
    (hrecipients : recipients.Nodup) (hpresent : ∀ index ∈ recipients, index ∈ party.map (·.index))
    (hshare : ∀ index, (share index).recipient = index)
    (haccepts : ∀ authority ∈ party, authority.index ∈ recipients →
      (now authority).Accepts (share authority.index) commitment) :
    (recipients.map share).forM (deliver commitment) (party.map now) =
      (.ok (), party.map fun authority => if authority.index ∈ recipients then
        (now authority).store (share authority.index) commitment else now authority) := by
  induction recipients generalizing now with
  | nil => rfl
  | cons recipient rest ih =>
    rw [List.nodup_cons] at hrecipients
    obtain ⟨hhead, htail⟩ := List.forall_mem_cons.1 hpresent
    have hdeliver : deliver commitment (share recipient) (party.map now) =
        (.ok (), party.map fun authority => if authority.index = recipient then
          (now authority).store (share authority.index) commitment else now authority) := by
      rw [deliver, hshare]
      apply onRecipient_map hnodup hindex hhead
      intro authority hmem hfound
      rw [← hfound]
      exact Authority.receive_of_accepts
        (haccepts authority hmem (hfound ▸ List.mem_cons_self))
    have hnext : ∀ authority ∈ party, (if authority.index = recipient then
        (now authority).store (share authority.index) commitment else now authority).index =
          authority.index := by
      intro authority hmem
      by_cases hfound : authority.index = recipient
      · rw [if_pos hfound]
        exact hindex authority hmem
      · rw [if_neg hfound]
        exact hindex authority hmem
    change (deliver commitment (share recipient) >>= fun _ =>
      (rest.map share).forM (deliver commitment)) (party.map now) = _
    rw [Action.bind_of_ok hdeliver, ih hnext hrecipients.2 htail]
    · refine congrArg (Prod.mk _) (List.map_congr_left fun authority _ => ?_)
      by_cases hfound : authority.index = recipient
      · have hdone : authority.index ∉ rest := hfound ▸ hrecipients.1
        have hmem : authority.index ∈ recipient :: rest := hfound ▸ List.mem_cons_self
        rw [if_neg hdone, if_pos hfound, if_pos hmem]
      · have hiff : authority.index ∈ recipient :: rest ↔ authority.index ∈ rest := by
          rw [List.mem_cons]
          exact or_iff_right hfound
        simp only [hiff, if_neg hfound]
    · intro authority hmem hlater
      have hother : authority.index ≠ recipient := fun heq => hrecipients.1 (heq ▸ hlater)
      rw [if_neg hother]
      exact haccepts authority hmem (List.mem_cons_of_mem _ hlater)

end Deliveries

/-- The share that a dealer has for a recipient. -/
def dealtShare (dealer : Authority) (recipient : UInt64) : SecretShare :=
  ⟨dealer.index, recipient, dealer.polynomial.evaluate dealer.group recipient.toNat⟩

/-- An authority that holds the shares of some dealers and of no others. -/
structure Informed (authority start : Authority) (dealers : List Authority) : Prop where
  setup : authority.SameSetup start
  holds : ∀ dealer ∈ dealers,
    authority.Holds dealer.index (dealtShare dealer start.index).value dealer.key.h
  vacant : ∀ index ∈ authorityIndices start.n, index ∉ dealers.map (·.index) →
    authority.received[index.toNat - 1]? = some none

theorem Informed.of_mem_iff {authority start : Authority} {dealers others : List Authority}
    (hinformed : Informed authority start dealers)
    (hmem : ∀ dealer, dealer ∈ others ↔ dealer ∈ dealers) : Informed authority start others := by
  refine ⟨hinformed.setup, fun dealer hdealer => hinformed.holds dealer ((hmem dealer).1 hdealer),
    fun index hindex hnew => hinformed.vacant index hindex fun hold => hnew ?_⟩
  obtain ⟨dealer, hdealer, rfl⟩ := List.mem_map.1 hold
  exact List.mem_map_of_mem ((hmem dealer).2 hdealer)

theorem informed_fresh {start : Authority} (hfresh : start.Fresh group n t start.index) :
    Informed start start [start] := by
  refine ⟨.refl start, ?_, ?_⟩
  · intro dealer hdealer
    rw [List.mem_singleton] at hdealer
    rw [hdealer, dealtShare, hfresh.group_eq]
    exact hfresh.holds
  · intro index hmem hnew
    have hrange := mem_authorityIndices.1 hfresh.index_mem
    rw [List.map_singleton, List.mem_singleton, ← UInt64.toNat_inj] at hnew
    rw [hfresh.n_eq, mem_authorityIndices] at hmem
    have hne : start.index.toNat - 1 ≠ index.toNat - 1 := by omega
    have hslot : index.toNat - 1 < n.toNat := by omega
    rw [hfresh.received, Authority.slots, List.getElem?_set_ne hne]
    exact List.getElem?_replicate_of_lt hslot

section Honest

variable {authority start dealer : Authority} {dealers : List Authority}

/-- The share of a fresh dealer that was not heard before is accepted. -/
theorem Informed.accepts (hsafe : group.IsSafe) (hinformed : Informed authority start dealers)
    (hstart : start.Fresh group n t start.index) (hdealer : dealer.Fresh group n t dealer.index)
    (hnew : dealer.index ∉ dealers.map (·.index)) :
    authority.Accepts (dealtShare dealer start.index)
      (dealer.polynomial.commit dealer.group) := by
  have hrange : dealer.index ∈ authorityIndices start.n := by
    rw [hstart.n_eq]
    exact hdealer.index_mem
  refine ⟨hinformed.setup.index_eq.symm, ⟨hdealer.index_pos, ?_⟩, ?_,
    hinformed.vacant _ hrange hnew, ?_, ?_⟩
  · rw [hinformed.setup.n_eq, hstart.n_eq]
    exact hdealer.index_le
  · rw [hinformed.setup.t_eq, hstart.t_eq, Polynomial.commit, List.length_map,
      hdealer.length_coefficients]
  · obtain ⟨hpos, hle⟩ := mem_authorityIndices.1 hrange
    rw [hinformed.setup.length_committed, hstart.length_committed, ← hstart.n_eq]
    change dealer.index.toNat - 1 < _
    omega
  · rw [hinformed.setup.group_eq, hinformed.setup.index_eq, hstart.group_eq, Polynomial.commit,
      hdealer.group_eq, Commitment.verifyShare_map_powG hsafe, dealtShare, hdealer.group_eq,
      ← Polynomial.cast_evaluate, decide_eq_true rfl]

theorem Informed.store (hsafe : group.IsSafe) (hinformed : Informed authority start dealers)
    (hstart : start.Fresh group n t start.index) (hdealer : dealer.Fresh group n t dealer.index)
    (hnew : dealer.index ∉ dealers.map (·.index)) :
    Informed (authority.store (dealtShare dealer start.index)
      (dealer.polynomial.commit dealer.group)) start (dealer :: dealers) := by
  have haccepts := hinformed.accepts hsafe hstart hdealer hnew
  refine ⟨hinformed.setup.store _ _, ?_, ?_⟩
  · obtain ⟨others, hcoefficients, _⟩ := hdealer.coefficients
    have hpublic : (dealer.polynomial.commit dealer.group).publicShare = some dealer.key.h := by
      rw [Commitment.publicShare, Polynomial.commit, hcoefficients, List.map_cons, List.head?_cons,
        hdealer.key_h, hdealer.group_eq]
    rw [List.forall_mem_cons]
    exact ⟨Authority.holds_store hinformed.setup hstart haccepts hpublic, fun other hother =>
      (hinformed.holds other hother).store haccepts⟩
  · intro index hmem hother
    rw [List.map_cons, List.mem_cons, not_or] at hother
    have hne : dealer.index.toNat - 1 ≠ index.toNat - 1 := by
      have hindex := (mem_authorityIndices.1 hmem).1
      have hrange := mem_authorityIndices.1 hdealer.index_mem
      have hdistinct : index.toNat ≠ dealer.index.toNat := fun heq =>
        hother.1 (UInt64.toNat_inj.1 heq)
      omega
    exact (List.getElem?_set_ne hne).trans (hinformed.vacant index hmem hother.2)

end Honest

/-- One dealer informs everyone of its shares. -/
theorem forM_shares (hsafe : group.IsSafe) {party : List Authority}
    (hparty : Party group n t party) {dealer : Authority} (hdealer : dealer ∈ party)
    {done : List Authority} (hnew : dealer.index ∉ done.map (·.index))
    (now : Authority → Authority)
    (hnow : ∀ authority ∈ party, Informed (now authority) authority (authority :: done)) :
    ∃ next : Authority → Authority,
      (dealer.publish.2.forM (deliver dealer.publish.1) : Action (List Authority) Unit)
        (party.map now) = (.ok (), party.map next) ∧
      ∀ authority ∈ party, Informed (next authority) authority (authority :: dealer :: done) := by
  have hfresh := hparty.fresh dealer hdealer
  set recipients := (authorityIndices dealer.n).filter (· ≠ dealer.index) with hrecipients
  have hrecipient (index : UInt64) :
      index ∈ recipients ↔ index ∈ party.map (·.index) ∧ index ≠ dealer.index := by
    rw [hrecipients, hfresh.n_eq, List.mem_filter, hparty.mem_indices, decide_eq_true_iff]
  have hunheard : ∀ authority ∈ party, authority.index ∈ recipients →
      dealer.index ∉ (authority :: done).map (·.index) := by
    intro authority _ hindex
    rw [List.map_cons, List.mem_cons, not_or]
    exact ⟨((hrecipient _).1 hindex).2.symm, hnew⟩
  refine ⟨fun authority => if authority.index ∈ recipients then
    (now authority).store (dealtShare dealer authority.index)
      (dealer.polynomial.commit dealer.group) else now authority, ?_, ?_⟩
  · apply forM_deliver (dealtShare dealer) hparty.nodup
    · exact fun authority hmem => (hnow authority hmem).setup.index_eq
    · exact (nodup_authorityIndices dealer.n).filter _
    · exact fun index hindex => ((hrecipient index).1 hindex).1
    · exact fun _ => rfl
    · intro authority hmem hindex
      exact (hnow authority hmem).accepts hsafe (hparty.fresh authority hmem) hfresh
        (hunheard authority hmem hindex)
  · intro authority hmem
    dsimp only
    by_cases hindex : authority.index ∈ recipients
    · rw [if_pos hindex]
      refine ((hnow authority hmem).store hsafe (hparty.fresh authority hmem) hfresh
        (hunheard authority hmem hindex)).of_mem_iff fun other => ?_
      simp only [List.mem_cons]
      tauto
    · -- only the dealer is no recipient of its own shares
      have hsame : authority = dealer := by
        apply hparty.eq_of_index_eq hmem hdealer
        by_contra hne
        exact hindex ((hrecipient _).2 ⟨List.mem_map_of_mem hmem, hne⟩)
      rw [if_neg hindex]
      refine (hnow authority hmem).of_mem_iff fun other => ?_
      simp only [List.mem_cons, hsame]
      tauto

/-- Dealers who deal one after the other inform everyone of their shares. -/
theorem forM_publish (hsafe : group.IsSafe) {party : List Authority}
    (hparty : Party group n t party) {dealers done : List Authority}
    (hdealers : ∀ dealer ∈ dealers, dealer ∈ party) (hnodup : (dealers.map (·.index)).Nodup)
    (hnew : ∀ dealer ∈ dealers, dealer.index ∉ done.map (·.index)) (now : Authority → Authority)
    (hnow : ∀ authority ∈ party, Informed (now authority) authority (authority :: done)) :
    ∃ reached : Authority → Authority,
      ((dealers.map Authority.publish).forM fun (commitment, shares) =>
        shares.forM (deliver commitment) : Action (List Authority) Unit) (party.map now) =
          (.ok (), party.map reached) ∧
      ∀ authority ∈ party, Informed (reached authority) authority
        (authority :: (dealers ++ done)) := by
  induction dealers generalizing done now with
  | nil => exact ⟨now, rfl, hnow⟩
  | cons dealer rest ih =>
    obtain ⟨hdealer, hrest⟩ := List.forall_mem_cons.1 hdealers
    obtain ⟨hdealerNew, hrestNew⟩ := List.forall_mem_cons.1 hnew
    rw [List.map_cons, List.nodup_cons] at hnodup
    have hlater : ∀ other ∈ rest, other.index ∉ (dealer :: done).map (·.index) := by
      intro other hother
      rw [List.map_cons, List.mem_cons, not_or]
      exact ⟨fun heq => hnodup.1 (heq ▸ List.mem_map_of_mem hother), hrestNew other hother⟩
    obtain ⟨next, hdeal, hnext⟩ := forM_shares hsafe hparty hdealer hdealerNew now hnow
    obtain ⟨reached, hrun, hreached⟩ := ih hrest hnodup.2 hlater next hnext
    refine ⟨reached, (Action.bind_of_ok hdeal _).trans hrun, fun authority hmem => ?_⟩
    refine (hreached authority hmem).of_mem_iff fun other => ?_
    simp only [List.mem_cons, List.mem_append]
    tauto

/-- The sum of the authorities' secrets. -/
def jointSecret (party : List Authority) : Nat :=
  (party.map (·.key.x)).sum

/-- The sum of the authorities' polynomials. -/
noncomputable def jointPolynomial (group : Group) (party : List Authority) : (ZMod group.q)[X] :=
  (party.map fun authority => group.polynomial authority.polynomial.coefficients).sum

theorem eval_zero_jointPolynomial {party : List Authority}
    (hfresh : ∀ authority ∈ party, authority.Fresh group n t authority.index) :
    (jointPolynomial group party).eval 0 = (jointSecret party : ZMod group.q) := by
  apply group.eval_zero_sum
  intro authority hmem
  exact (hfresh authority hmem).eval_zero

theorem degree_jointPolynomial_lt {party : List Authority}
    (hfresh : ∀ authority ∈ party, authority.Fresh group n t authority.index) :
    (jointPolynomial group party).degree < (t.toNat : WithBot Nat) := by
  refine group.degree_sum_lt fun authority hmem => ?_
  rw [← (hfresh authority hmem).length_coefficients]
  exact group.degree_polynomial_lt _

/-- The public shares of fresh authorities combine to `g` to the sum of their secrets, unless `f` or
    that element is no generator. -/
theorem combine_publicShares (hsafe : group.IsSafe) {party : List Authority}
    (hparty : Party group n t party) (hne : party ≠ []) (f : Nat) :
    PublicKey.combine group f (party.map Authority.publicShare) =
      PublicKey.new group f (group.powG (jointSecret party)) := by
  have hgenerators : ∀ share ∈ party.map Authority.publicShare,
      group.isGenerator share.h = true := by
    intro share hshare
    obtain ⟨authority, hmem, rfl⟩ := List.mem_map.1 hshare
    have hfresh := hparty.fresh authority hmem
    change group.isGenerator authority.key.h = true
    rw [hfresh.key_h, Group.isGenerator_powG hsafe, Ne, ZMod.natCast_eq_zero_iff]
    intro hdvd
    exact hfresh.secret_ne_zero (Nat.eq_zero_of_dvd_of_lt hdvd hfresh.secret_lt_q)
  have hindices : (party.map Authority.publicShare).map (·.index) = party.map (·.index) := by
    rw [List.map_map]
    exact List.map_congr_left fun authority hmem => (hparty.fresh authority hmem).key_index
  have helements : (party.map Authority.publicShare).map (·.h) =
      (party.map (·.key.x)).map group.powG := by
    rw [List.map_map, List.map_map]
    exact List.map_congr_left fun authority hmem => (hparty.fresh authority hmem).key_h
  have hshares : party.map Authority.publicShare ≠ [] :=
    fun hnil => hne (List.map_eq_nil_iff.1 hnil)
  rw [PublicKey.combine_eq hshares f hgenerators (hindices ▸ hparty.nodup), helements,
    Group.product_powG, jointSecret]

/-- Once all have dealt, every authority has a share from every dealer. -/
theorem exists_complete (hsafe : group.IsSafe) {party : List Authority}
    (hparty : Party group n t party) (hne : party ≠ []) :
    ∃ (reached : Authority → Authority) (f : UInt64 → (ZMod group.q)[X]) (h : UInt64 → Nat),
      ((party.map Authority.publish).forM fun (commitment, shares) =>
        shares.forM (deliver commitment) : Action (List Authority) Unit) party =
          (.ok (), party.map reached) ∧
      (∀ authority ∈ party, (reached authority).Complete group n t f h ∧
        (reached authority).SameSetup authority) ∧
      ∀ authority ∈ party, h authority.index = authority.key.h ∧
        f authority.index = group.polynomial authority.polynomial.coefficients := by
  obtain ⟨reached, hrun, hreached⟩ := forM_publish hsafe hparty (fun _ hmem => hmem) hparty.nodup
    (fun _ _ => List.not_mem_nil) id fun authority hmem =>
      informed_fresh (hparty.fresh authority hmem)
  have hfind (index : UInt64) :
      ∃ found, ∀ authority ∈ party, authority.index = index → found = authority := by
    by_cases hpresent : ∃ authority ∈ party, authority.index = index
    · obtain ⟨found, hfound, rfl⟩ := hpresent
      exact ⟨found, fun authority hmem hindex =>
        hparty.eq_of_index_eq hfound hmem hindex.symm⟩
    · obtain ⟨first, _⟩ := List.exists_mem_of_ne_nil party hne
      exact ⟨first, fun authority hmem hindex => absurd ⟨authority, hmem, hindex⟩ hpresent⟩
  choose find hfind using hfind
  refine ⟨reached, fun index => group.polynomial (find index).polynomial.coefficients,
    fun index => (find index).key.h, ?_, fun authority hmem => ⟨?_, ?_⟩, fun authority hmem => ?_⟩
  · rw [List.map_id] at hrun
    exact hrun
  · obtain ⟨hsetup, hholds, _⟩ := hreached authority hmem
    apply Authority.complete_of_holds hsetup (hparty.fresh authority hmem)
    intro index hindex
    obtain ⟨dealer, hdealer, rfl⟩ := List.mem_map.1 (hparty.mem_indices.2 hindex)
    refine ⟨(dealtShare dealer authority.index).value, ?_, ?_⟩
    · rw [hfind _ dealer hdealer rfl]
      apply hholds
      simp [hdealer]
    · rw [hfind _ dealer hdealer rfl, dealtShare,
        (hparty.fresh dealer hdealer).group_eq, Polynomial.cast_evaluate]
  · exact (hreached authority hmem).setup
  · dsimp only
    rw [hfind _ authority hmem rfl]
    exact ⟨rfl, rfl⟩

/-- The public shares of fresh authorities pass with everyone who has a share from every dealer. -/
theorem checkPublicShares_publicShares {party : List Authority} (hparty : Party group n t party)
    {authority : Authority} {f : UInt64 → (ZMod group.q)[X]} {h : UInt64 → Nat}
    (hcomplete : authority.Complete group n t f h)
    (hpublic : ∀ dealer ∈ party, h dealer.index = dealer.key.h) :
    authority.checkPublicShares (party.map Authority.publicShare) = .ok () := by
  rw [hcomplete.checkPublicShares_eq_ok_iff]
  refine ⟨?_, fun share hshare => ?_⟩
  · have hlength := hparty.indices.length_eq
    rw [List.length_map, length_authorityIndices] at hlength
    rw [List.length_map, hlength]
  · obtain ⟨dealer, hdealer, rfl⟩ := List.mem_map.1 hshare
    have hindex : dealer.publicShare.index = dealer.index :=
      (hparty.fresh dealer hdealer).key_index
    rw [hindex, hpublic dealer hdealer]
    exact ⟨hparty.mem_indices.1 (List.mem_map_of_mem hdealer), rfl⟩

theorem sum_eq_jointPolynomial {party : List Authority} (hparty : Party group n t party)
    {f : UInt64 → (ZMod group.q)[X]}
    (hf : ∀ dealer ∈ party, f dealer.index = group.polynomial dealer.polynomial.coefficients) :
    ((authorityIndices n).map f).sum = jointPolynomial group party := by
  rw [← (hparty.indices.map f).sum_eq, List.map_map, jointPolynomial]
  congr 1
  exact List.map_congr_left hf

/-- The ceremony fails only if the public key does. Everyone's private share is a point on the sum
    of the polynomials. -/
theorem run_eq (hsafe : group.IsSafe) {party : List Authority} (hparty : Party group n t party)
    (hne : party ≠ []) (f : Nat) :
    ∃ shares, List.Forall₂ (fun authority share => share.index = authority.index ∧
        share.IsPoint group t (jointPolynomial group party)) party shares ∧
      (run f party).1 = match PublicKey.new group f (group.powG (jointSecret party)) with
        | .ok publicKey => .ok (publicKey, shares)
        | .error error => .error (.refused error) := by
  obtain ⟨reached, polynomial, h, hrun, hreached, hdealt⟩ := exists_complete hsafe hparty hne
  have hpublished : (party.map reached).map Authority.publicShare =
      party.map Authority.publicShare := by
    rw [List.map_map]
    apply List.map_congr_left
    intro authority hmem
    rw [Function.comp_apply, Authority.publicShare, (hreached authority hmem).2.key_eq]
    rfl
  have hcheck : ∀ authority ∈ party.map reached,
      (liftM (authority.checkPublicShares (party.map Authority.publicShare)) :
        Action (List Authority) Unit) (party.map reached) = (.ok (), party.map reached) := by
    intro changed hchanged
    obtain ⟨authority, hmem, rfl⟩ := List.mem_map.1 hchanged
    rw [Action.liftExcept_apply, checkPublicShares_publicShares hparty
      (hreached authority hmem).1 fun dealer hdealer => (hdealt dealer hdealer).1]
    rfl
  have hjoint := sum_eq_jointPolynomial hparty fun dealer hdealer => (hdealt dealer hdealer).2
  have hfinish : ∀ authority ∈ party.map reached, ∃ share,
      (liftM authority.finish : Action (List Authority) PrivateShare) (party.map reached) =
          (.ok share, party.map reached) ∧
        share.index = authority.index ∧ share.IsPoint group t (jointPolynomial group party) := by
    intro changed hchanged
    obtain ⟨authority, hmem, rfl⟩ := List.mem_map.1 hchanged
    obtain ⟨hcomplete, hsetup⟩ := hreached authority hmem
    obtain ⟨share, hshare, hindex, hpoint⟩ :=
      hcomplete.exists_share hsetup (hparty.fresh authority hmem)
    refine ⟨share, ?_, hindex.trans hsetup.index_eq.symm, hjoint ▸ hpoint⟩
    rw [Action.liftExcept_apply, hshare]
    rfl
  obtain ⟨shares, hshares, hpoints⟩ := Action.exists_mapM_eq hfinish
  rw [List.forall₂_map_left_iff] at hpoints
  have hindices : ∀ authority ∈ party, (reached authority).index = authority.index :=
    fun authority hmem => (hreached authority hmem).2.index_eq
  refine ⟨shares, ?_, ?_⟩
  · exact ((List.forall₂_and_left _ _).2 ⟨hindices, hpoints⟩).imp
      fun _ _ hshare => ⟨hshare.2.1.trans hshare.1, hshare.2.2⟩
  · cases party with
    | nil => exact absurd rfl hne
    | cons first rest =>
      have hgroup := (hparty.fresh first List.mem_cons_self).group_eq
      rw [run, Action.get_bind_apply]
      dsimp only
      rw [Action.bind_of_ok hrun, Action.get_bind_apply, hpublished,
        Action.bind_of_ok (Action.forM_eq_ok hcheck), hgroup,
        combine_publicShares hsafe hparty hne, Action.liftExcept_bind_apply]
      cases PublicKey.new group f (group.powG (jointSecret (first :: rest))) with
      | error error => rfl
      | ok publicKey =>
        dsimp only
        rw [Action.bind_of_ok hshares]
        rfl

/-- What a ceremony returns when it succeeds: a public key for the sum of the secrets of the
    authorities, whatever their order, and for each of them a share of its private key. -/
structure Yields (group : Group) (t : UInt64) (created order : List Authority) (f : Nat)
    (publicKey : PublicKey) (shares : List PrivateShare) : Prop where
  group_eq : publicKey.group = group
  f_eq : publicKey.f = f
  h_eq : publicKey.h = group.powG (jointSecret created)
  points : List.Forall₂ (fun authority share => share.index = authority.index ∧
    share.IsPoint group t (jointPolynomial group created)) order shares
  enough : ∀ chosen : List PrivateShare, (∀ share ∈ chosen, share ∈ shares) →
    t.toNat ≤ (chosen.map (·.index)).toFinset.card →
      ∃ key, DecryptionKey.combine chosen = .ok key ∧ key.fits publicKey = true
  tooFew : ∀ chosen : List PrivateShare, (∀ share ∈ chosen, share ∈ shares) → chosen ≠ [] →
    (chosen.map (·.index)).toFinset.card < t.toNat →
      DecryptionKey.combine chosen = .error (.refused
        (.notEnoughShares (chosen.map (·.index)).toFinset.card t.toNat))

/-- A ceremony between fresh authorities succeeds exactly if `f` is a generator and the secrets do
    not cancel each other out. There is no other failure than a bad key. -/
theorem run_correct (hsafe : group.IsSafe) (hn : n ≠ 0) {created order : List Authority}
    {supply rest : Bytes} (hcreated : authorities group n t supply = (.ok created, rest))
    (horder : order.Perm created) (f : Nat) :
    (group.isGenerator f = true ∧ jointSecret created % group.q ≠ 0 →
      ∃ publicKey shares, (run f order).1 = .ok (publicKey, shares) ∧
        Yields group t created order f publicKey shares) ∧
    (¬ (group.isGenerator f = true ∧ jointSecret created % group.q ≠ 0) →
      ∃ fault, (run f order).1 = .error (.refused (.badKey fault))) := by
  have hparty := party_of_authorities hcreated horder
  have hne : order ≠ [] := by
    rintro rfl
    have hlength := hparty.indices.length_eq
    rw [List.map_nil, List.length_nil, length_authorityIndices] at hlength
    exact hn (UInt64.toNat_inj.1 hlength.symm)
  have hsecret : jointSecret order = jointSecret created := (horder.map _).sum_eq
  have hpolynomial : jointPolynomial group order = jointPolynomial group created :=
    (horder.map _).sum_eq
  obtain ⟨shares, hshares, hrun⟩ := run_eq hsafe hparty hne f
  have hgenerator : group.isGenerator (group.powG (jointSecret order)) = true ↔
      jointSecret created % group.q ≠ 0 := by
    rw [Group.isGenerator_powG hsafe, hsecret, Ne, ZMod.natCast_eq_zero_iff,
      Nat.dvd_iff_mod_eq_zero]
  rw [PublicKey.new] at hrun
  constructor
  · rintro ⟨hf, hsum⟩
    rw [dif_pos hf, dif_pos (hgenerator.2 hsum)] at hrun
    have hpoints : ∀ share ∈ shares, share.IsPoint group t (jointPolynomial group order) := by
      intro share hmem
      obtain ⟨_, _, _, hpoint⟩ := exists_of_mem_of_forall₂ hshares hmem
      exact hpoint
    refine ⟨_, shares, hrun, rfl, rfl, congrArg group.powG hsecret,
      hpolynomial ▸ hshares, ?_, ?_⟩
    · intro chosen hchosen hcount
      have hchosenNe : chosen ≠ [] := by
        rintro rfl
        obtain ⟨first, hmem⟩ := List.exists_mem_of_ne_nil order hne
        exact (hparty.fresh first hmem).t_toNat_ne_zero (Nat.le_zero.1 hcount)
      exact DecryptionKey.combine_fits hsafe hchosenNe
        (fun share hmem => hpoints share (hchosen share hmem))
        (degree_jointPolynomial_lt hparty.fresh) hcount rfl rfl
        (eval_zero_jointPolynomial hparty.fresh).symm
    · intro chosen hchosen hchosenNe hcount
      exact DecryptionKey.combine_of_lt hchosenNe
        (fun share hmem => hpoints share (hchosen share hmem)) hcount
  · intro hnot
    by_cases hf : group.isGenerator f = true
    · have hh : ¬ group.isGenerator (group.powG (jointSecret order)) = true := fun h =>
        hnot ⟨hf, hgenerator.1 h⟩
      rw [dif_pos hf, dif_neg hh] at hrun
      exact ⟨_, hrun⟩
    · rw [dif_neg hf] at hrun
      exact ⟨_, hrun⟩

/-- Two authorities in the group of order 11, both of whom are needed. -/
def smallParty : List Authority :=
  [⟨Group.small, 1, 2, 2, ⟨1, 3, 18⟩, ⟨[3, 5]⟩, [some 8, none], [some 18, none]⟩,
    ⟨Group.small, 2, 2, 2, ⟨2, 4, 3⟩, ⟨[4, 1]⟩, [none, some 6], [none, some 3]⟩]

theorem run_correct_smallParty :
    authorities Group.small 2 2 [3, 0, 5, 4, 0, 1] = (.ok smallParty, []) ∧
      ∃ publicKey shares, (run 2 smallParty.reverse).1 = .ok (publicKey, shares) ∧
        Yields Group.small 2 smallParty smallParty.reverse 2 publicKey shares := by
  have hcreated : authorities Group.small 2 2 [3, 0, 5, 4, 0, 1] = (.ok smallParty, []) := rfl
  have hready : Group.small.isGenerator 2 = true ∧
      jointSecret smallParty % Group.small.q ≠ 0 := by
    decide +kernel
  have hcorrect := run_correct Group.small_isSafe (by decide) hcreated (List.reverse_perm _) 2
  exact ⟨hcreated, hcorrect.1 hready⟩

end Ceremony

end SecretBallot

end
