import Mathlib
import SecretBallot.Proofs.Ceremony.Dealers

namespace SecretBallot

/-- Filling an empty slot adds one value. -/
theorem filterMap_set_perm {α : Type} {slots : List (Option α)} {slot : Nat}
    (hvacant : slots[slot]? = some none) (value : α) :
    ((slots.set slot (some value)).filterMap id).Perm (value :: slots.filterMap id) := by
  induction slots generalizing slot with
  | nil => cases hvacant
  | cons head tail ih =>
    cases slot with
    | zero =>
      rw [List.getElem?_cons_zero, Option.some.injEq] at hvacant
      subst hvacant
      exact .refl _
    | succ slot =>
      rw [List.getElem?_cons_succ] at hvacant
      cases head with
      | none => exact ih hvacant
      | some first => exact ((ih hvacant).cons first).trans (.swap _ _ _)

namespace Authority

/-- The deliveries that are accepted when they come, one after the other. -/
def accepted (authority : Authority) :
    List (SecretShare × Commitment) → List (SecretShare × Commitment)
  | [] => []
  | delivery :: rest =>
    let run := receive delivery.1 delivery.2 authority
    if run.1 = .ok () then delivery :: run.2.accepted rest else run.2.accepted rest

/-- The slots of a dealer are empty. -/
structure Vacant (authority : Authority) (dealer : UInt64) : Prop where
  received : authority.received[dealer.toNat - 1]? = some none
  committed : authority.committed[dealer.toNat - 1]? = some none

/-- A delivery for this authority from another dealer, whose share verifies under a commitment of as
    many members of the subgroup as the threshold says. -/
structure Vouches (authority : Authority) (delivery : SecretShare × Commitment) : Prop where
  recipient : delivery.1.recipient = authority.index
  dealer : delivery.1.dealer ∈ authorityIndices authority.n
  foreign : delivery.1.dealer ≠ authority.index
  size : delivery.2.elements.length = authority.t.toNat
  members : ∀ element ∈ delivery.2.elements, authority.group.isMember element = true
  verifies :
    delivery.2.verifyShare authority.group authority.index.toNat delivery.1.value = .ok true

/-- What an authority holds after it has accepted the deliveries of a log: its own share next to
    `g ^ x`, in the slots of every dealer in the log the share that this dealer sent and the
    constant term of its commitment, and nothing else. -/
structure HasCollected (authority start : Authority) (log : List (SecretShare × Commitment)) :
    Prop where
  setup : authority.SameSetup start
  own : authority.Holds start.index (start.polynomial.evaluate start.group start.index.toNat)
    (start.group.powG start.key.x)
  distinct : (log.map (·.1.dealer)).Nodup
  vouched : ∀ delivery ∈ log, start.Vouches delivery
  holds : ∀ delivery ∈ log, ∃ h, delivery.2.publicShare = some h ∧
    authority.Holds delivery.1.dealer delivery.1.value h
  vacant : ∀ dealer ∈ authorityIndices start.n, dealer ≠ start.index →
    dealer ∉ log.map (·.1.dealer) → authority.Vacant dealer
  values : (authority.received.filterMap id).Perm
    (start.polynomial.evaluate start.group start.index.toNat :: log.map (·.1.value))

section Collecting

variable {authority start : Authority} {group : Group} {n t index : UInt64}
  {share : SecretShare} {commitment : Commitment} {log : List (SecretShare × Commitment)}

theorem slot_ne {dealer other : UInt64} (hdealer : dealer ∈ authorityIndices n)
    (hother : other ∈ authorityIndices n) (hne : dealer ≠ other) :
    dealer.toNat - 1 ≠ other.toNat - 1 := by
  have hrange := mem_authorityIndices.1 hdealer
  have hrange' := mem_authorityIndices.1 hother
  have hnat : dealer.toNat ≠ other.toNat := fun heq => hne (UInt64.toNat_inj.1 heq)
  omega

/-- A fresh authority has its own share and no other. -/
theorem Fresh.hasCollected (hfresh : start.Fresh group n t index) :
    start.HasCollected start [] := by
  obtain rfl := hfresh.group_eq
  obtain rfl := hfresh.index_eq
  obtain rfl := hfresh.n_eq
  have hempty {dealer : UInt64} (hdealer : dealer ∈ authorityIndices start.n) :
      (List.replicate start.n.toNat (none : Option Nat))[dealer.toNat - 1]? = some none := by
    have hrange := mem_authorityIndices.1 hdealer
    rw [List.getElem?_replicate, if_pos (by omega)]
  refine ⟨.refl start, hfresh.key_h ▸ hfresh.holds, List.nodup_nil, List.forall_mem_nil _,
    List.forall_mem_nil _, fun dealer hdealer hne _ => ?_, ?_⟩
  · have hvacant {value : Nat} :
        (slots start.n start.index value)[dealer.toNat - 1]? = some none := by
      rw [slots, List.getElem?_set_ne (slot_ne hfresh.index_mem hdealer hne.symm), hempty hdealer]
    exact ⟨hfresh.received ▸ hvacant, hfresh.committed ▸ hvacant⟩
  · rw [hfresh.received, slots]
    refine (filterMap_set_perm (hempty hfresh.index_mem) _).trans (.cons _ ?_)
    rw [List.filterMap_replicate_of_none rfl]
    exact .refl _

/-- An accepted delivery is one that the authority can rely on. -/
theorem HasCollected.vouches (hcollected : authority.HasCollected start log)
    (haccepts : authority.Accepts share commitment) : start.Vouches (share, commitment) where
  recipient := haccepts.recipient.trans hcollected.setup.index_eq
  dealer := by
    obtain ⟨hpos, hle⟩ := haccepts.dealer
    rw [hcollected.setup.n_eq] at hle
    exact mem_authorityIndices.2 ⟨UInt64.le_iff_toNat_le.1 hpos, UInt64.le_iff_toNat_le.1 hle⟩
  foreign hown := hcollected.own.not_accepts (hown ▸ rfl) haccepts
  size := haccepts.size.trans (congrArg UInt64.toNat hcollected.setup.t_eq)
  members := by
    rw [← hcollected.setup.group_eq]
    exact Commitment.isMember_of_verifyShare haccepts.verifies
  verifies := by
    rw [← hcollected.setup.group_eq, ← hcollected.setup.index_eq]
    exact haccepts.verifies

/-- One more accepted delivery is one more entry of the log. -/
theorem HasCollected.store (hcollected : authority.HasCollected start log)
    (hfresh : start.Fresh group n t index) (haccepts : authority.Accepts share commitment) :
    (authority.store share commitment).HasCollected start (log ++ [(share, commitment)]) := by
  have hvouches := hcollected.vouches haccepts
  have hnew : share.dealer ∉ log.map (·.1.dealer) := by
    intro hmem
    obtain ⟨delivery, hdelivery, hsame⟩ := List.mem_map.1 hmem
    obtain ⟨h, _, hholds⟩ := hcollected.holds delivery hdelivery
    exact hholds.not_accepts (hsame ▸ rfl) haccepts
  obtain ⟨h, hpublic⟩ : ∃ h, commitment.publicShare = some h := by
    refine Option.ne_none_iff_exists'.1 fun hnone => ?_
    have hsize := hvouches.size
    rw [List.head?_eq_none_iff.1 hnone, hfresh.t_eq] at hsize
    exact hfresh.t_toNat_ne_zero hsize.symm
  refine ⟨hcollected.setup.store share commitment, hcollected.own.store haccepts,
    ?_, ?_, ?_, ?_, ?_⟩
  · rw [List.map_append, List.map_singleton, ← List.concat_eq_append]
    exact hcollected.distinct.concat hnew
  · exact List.forall_mem_append.2
      ⟨hcollected.vouched, List.forall_mem_singleton.2 hvouches⟩
  · refine List.forall_mem_append.2 ⟨fun delivery hdelivery => ?_, List.forall_mem_singleton.2
      ⟨h, hpublic, holds_store hcollected.setup hfresh haccepts hpublic⟩⟩
    obtain ⟨h', hpublic', hholds⟩ := hcollected.holds delivery hdelivery
    exact ⟨h', hpublic', hholds.store haccepts⟩
  · intro dealer hdealer hown hmem
    rw [List.map_append, List.map_singleton, List.mem_append, List.mem_singleton, not_or] at hmem
    have hvacant := hcollected.vacant dealer hdealer hown hmem.1
    have hslot := slot_ne hvouches.dealer hdealer (Ne.symm hmem.2)
    exact ⟨(List.getElem?_set_ne hslot).trans hvacant.received,
      (List.getElem?_set_ne hslot).trans hvacant.committed⟩
  · rw [List.map_append, List.map_singleton]
    refine (filterMap_set_perm haccepts.vacant share.value).trans ?_
    refine (hcollected.values.cons share.value).trans ?_
    exact (List.perm_append_singleton share.value (_ :: _)).symm

/-- The log of all deliveries goes on where it was. -/
theorem HasCollected.afterDeliveries (hcollected : authority.HasCollected start log)
    (hfresh : start.Fresh group n t index) (deliveries : List (SecretShare × Commitment)) :
    (authority.afterDeliveries deliveries).HasCollected start
      (log ++ authority.accepted deliveries) := by
  induction deliveries generalizing authority log with
  | nil =>
    rw [accepted, List.append_nil]
    exact hcollected
  | cons delivery rest ih =>
    rw [accepted]
    change ((receive delivery.1 delivery.2 authority).2.afterDeliveries rest).HasCollected start _
    rcases receive_cases delivery.1 delivery.2 authority with ⟨haccepts, hrun⟩ | ⟨_, _, hrun⟩
    · rw [hrun, if_pos rfl, List.append_cons]
      exact ih (hcollected.store hfresh haccepts)
    · rw [hrun, if_neg (by rintro ⟨⟩)]
      exact ih hcollected

/-- The own slots are filled, and so are those of every dealer in the log. -/
theorem HasCollected.exists_holds (hcollected : authority.HasCollected start log)
    (hfresh : start.Fresh group n t index) {dealer : UInt64}
    (hdealer : dealer = start.index ∨ dealer ∈ log.map (·.1.dealer)) :
    dealer ∈ authorityIndices start.n ∧ ∃ value h, authority.Holds dealer value h := by
  rcases hdealer with rfl | hmem
  · refine ⟨?_, _, _, hcollected.own⟩
    rw [hfresh.n_eq, hfresh.index_eq]
    exact hfresh.index_mem
  · obtain ⟨delivery, hdelivery, rfl⟩ := List.mem_map.1 hmem
    obtain ⟨h, _, hholds⟩ := hcollected.holds delivery hdelivery
    exact ⟨(hcollected.vouched delivery hdelivery).dealer, _, h, hholds⟩

/-- A slot is empty or filled for shares and commitments alike. -/
theorem HasCollected.filled_iff (hcollected : authority.HasCollected start log)
    (hfresh : start.Fresh group n t index) (slot : Nat) :
    (∃ value, authority.received[slot]? = some (some value)) ↔
      ∃ h, authority.committed[slot]? = some (some h) := by
  have hreceived : authority.received.length = start.n.toNat :=
    hcollected.setup.length_received.trans (hfresh.n_eq ▸ hfresh.length_received)
  have hcommitted : authority.committed.length = start.n.toNat :=
    hcollected.setup.length_committed.trans (hfresh.n_eq ▸ hfresh.length_committed)
  by_cases hslot : slot < start.n.toNat
  · obtain ⟨dealer, hmem, rfl⟩ :
        ∃ dealer ∈ authorityIndices start.n, dealer.toNat - 1 = slot := by
      have hnat : (UInt64.ofNat (slot + 1)).toNat = slot + 1 := toNat_ofNat_succ hslot
      exact ⟨UInt64.ofNat (slot + 1), mem_authorityIndices.2 (by omega), by omega⟩
    by_cases hdealer : dealer = start.index ∨ dealer ∈ log.map (·.1.dealer)
    · obtain ⟨_, value, h, hholds⟩ := hcollected.exists_holds hfresh hdealer
      exact ⟨fun _ => ⟨h, hholds.committed⟩, fun _ => ⟨value, hholds.received⟩⟩
    · obtain ⟨hown, hother⟩ := not_or.1 hdealer
      have hvacant := hcollected.vacant dealer hmem hown hother
      rw [hvacant.received, hvacant.committed]
  · -- beyond the last authority there is no slot in either list
    rw [List.getElem?_eq_none (by omega), List.getElem?_eq_none (by omega)]

/-- A delivery that is addressed and sized as it should be is a duplicate if its slot is filled. -/
theorem HasCollected.receive_eq_duplicate (hcollected : authority.HasCollected start log)
    (hfresh : start.Fresh group n t index) (hrecipient : share.recipient = start.index)
    (hdealer : share.dealer = start.index ∨ share.dealer ∈ log.map (·.1.dealer))
    (hsize : commitment.elements.length = start.t.toNat) :
    receive share commitment authority =
      (.error (.refused (.duplicateAuthority share.dealer.toNat)), authority) := by
  obtain ⟨hmem, value, h, hholds⟩ := hcollected.exists_holds hfresh hdealer
  have hrange : 1 ≤ share.dealer ∧ share.dealer ≤ authority.n := by
    rw [hcollected.setup.n_eq, UInt64.le_iff_toNat_le, UInt64.le_iff_toNat_le]
    exact mem_authorityIndices.1 hmem
  have hheld : entryAt authority.received (share.dealer.toNat - 1) = .ok (some value) :=
    entryAt_eq_ok_iff.2 hholds.received
  rw [← hcollected.setup.index_eq] at hrecipient
  rw [← hcollected.setup.t_eq] at hsize
  rw [receive, Action.get_bind_apply]
  simp only [Action.ensure_bind_apply]
  rw [if_pos hrecipient, if_pos hrange, if_pos hsize, toNat_sub_one hrange.1,
    Action.lift_bind_apply, hheld]
  dsimp only
  rw [Action.ensure_bind_apply, if_neg (by rintro ⟨⟩)]

/-- Every authority with all slots filled finishes. -/
theorem SameSetup.exists_finish (hsetup : authority.SameSetup start)
    (hfresh : start.Fresh group n t index) (hfull : none ∉ authority.received) :
    ∃ share, authority.finish = .ok share ∧ share.group = group ∧ share.index = index ∧
      share.threshold = t ∧ share.value = (authority.received.filterMap id).sum % group.q := by
  have hgroup := hsetup.group_eq.trans hfresh.group_eq
  have hindex := hsetup.index_eq.trans hfresh.index_eq
  have ht := hsetup.t_eq.trans hfresh.t_eq
  have hshare := finish_of_none_not_mem hfull (hindex ▸ hfresh.index_ne_zero)
    (ht ▸ hfresh.t_ne_zero) (hindex ▸ hgroup ▸ hfresh.index_lt_q)
  rwa [hgroup, hindex, ht] at hshare

/-- The private share depends on the received values, not on their order. -/
theorem finish_congr {other : Authority} (hsetup : authority.SameSetup start)
    (hother : other.SameSetup start)
    (hvalues : (authority.received.filterMap id).Perm (other.received.filterMap id)) :
    authority.finish = other.finish := by
  have hlength : authority.received.length = other.received.length :=
    hsetup.length_received.trans hother.length_received.symm
  have hfull : authority.received.all Option.isSome = true ↔
      other.received.all Option.isSome = true := by
    rw [List.all_eq_true, List.all_eq_true]
    have hcount (slots : List (Option Nat)) : (∀ slot ∈ slots, slot.isSome = true) ↔
        (slots.filterMap id).length = slots.length :=
      List.filterMap_length_eq_length.symm
    rw [hcount, hcount, hvalues.length_eq, hlength]
  rw [finish, finish, Bool.eq_iff_iff.2 hfull, Group.sumQ_eq, Group.sumQ_eq, hvalues.sum_eq,
    hsetup.group_eq, hsetup.index_eq, hsetup.t_eq, hother.group_eq, hother.index_eq, hother.t_eq]

end Collecting

/-- One authority collects shares from deliveries of any kind. It holds its own share from the start
    and what the accepted deliveries brought, one of each dealer at most, which nothing overwrites.
    A rejected delivery changes nothing, and one of a dealer whose slot is filled is a duplicate. It
    finishes exactly if every slot is filled, with the sum of what was received; accepted values in
    another order give the same result. -/
theorem collects_shares {group : Group} {n t index : UInt64} {supply rest : Bytes}
    {start : Authority} (hnew : Authority.new group n t index supply = (.ok start, rest))
    (deliveries : List (SecretShare × Commitment)) :
    let reached := start.afterDeliveries deliveries
    let log := start.accepted deliveries
    start.Fresh group n t index ∧ reached.HasCollected start log ∧
    (∀ slot : Nat, (∃ value, reached.received[slot]? = some (some value)) ↔
      ∃ h, reached.committed[slot]? = some (some h)) ∧
    (∀ more dealer value h, reached.Holds dealer value h →
      (reached.afterDeliveries more).Holds dealer value h) ∧
    (∀ share commitment,
      ((receive share commitment reached).1 ≠ .ok () →
        (receive share commitment reached).2 = reached) ∧
      (share.recipient = index → share.dealer = index ∨ share.dealer ∈ log.map (·.1.dealer) →
        commitment.elements.length = t.toNat →
          receive share commitment reached =
            (.error (.refused (.duplicateAuthority share.dealer.toNat)), reached))) ∧
    (none ∈ reached.received → reached.finish = .error (.uninitialized .receivedShares)) ∧
    (none ∉ reached.received → ∃ share, reached.finish = .ok share ∧ share.group = group ∧
      share.index = index ∧ share.threshold = t ∧
      share.value = (reached.received.filterMap id).sum % group.q) ∧
    ∀ others, ((start.accepted others).map (·.1.value)).Perm (log.map (·.1.value)) →
      (start.afterDeliveries others).finish = reached.finish := by
  intro reached log
  have hfresh := fresh_of_new hnew
  have hcollected (others : List (SecretShare × Commitment)) :
      (start.afterDeliveries others).HasCollected start (start.accepted others) :=
    hfresh.hasCollected.afterDeliveries hfresh others
  have hsetup := (hcollected deliveries).setup
  refine ⟨hfresh, hcollected deliveries, (hcollected deliveries).filled_iff hfresh,
    fun more dealer value h hholds => hholds.afterDeliveries more,
    fun share commitment => ⟨fun hfailed => ?_, fun hrecipient hdealer hsize => ?_⟩,
    finish_of_none_mem, fun hfull => ?_, fun others hvalues => ?_⟩
  · rcases receive_cases share commitment reached with ⟨_, hrun⟩ | ⟨_, _, hrun⟩
    · rw [hrun] at hfailed
      exact absurd rfl hfailed
    · rw [hrun]
  · rw [← hfresh.index_eq] at hrecipient hdealer
    rw [← hfresh.t_eq] at hsize
    exact (hcollected deliveries).receive_eq_duplicate hfresh hrecipient hdealer hsize
  · exact hsetup.exists_finish hfresh hfull
  · apply finish_congr (hcollected others).setup hsetup
    exact (hcollected others).values.trans
      ((hvalues.cons _).trans (hcollected deliveries).values.symm)

/-- The first of three authorities in the group of order 11. Of the deliveries the second one is
    rejected, and the first brings a share that is not reduced. -/
theorem collects_shares_small :
    let start : Authority := ⟨Group.small, 1, 3, 2, ⟨1, 3, 18⟩, ⟨[3, 5]⟩, [some 8, none, none],
      [some 18, none, none]⟩
    let wrong : SecretShare × Commitment := (⟨2, 1, 6⟩, ⟨[3, 4]⟩)
    let second : SecretShare × Commitment := (⟨2, 1, 5⟩, ⟨[3, 4]⟩)
    let third : SecretShare × Commitment := (⟨3, 1, 20⟩, ⟨[16, 8]⟩)
    let reached := start.afterDeliveries [third, wrong, second]
    Authority.new Group.small 3 2 1 [3, 0, 5] = (.ok start, []) ∧
      reached.HasCollected start [third, second] ∧
      receive ⟨3, 1, 4⟩ ⟨[16, 8]⟩ reached =
        (.error (.refused (.duplicateAuthority 3)), reached) ∧
      (start.afterDeliveries [third]).finish = .error (.uninitialized .receivedShares) ∧
      (∃ share, reached.finish = .ok share ∧ share.index = 1 ∧ share.threshold = 2 ∧
        share.value = 0) ∧
      (start.afterDeliveries [second, third]).finish = reached.finish := by
  intro start wrong second third reached
  have hnew : Authority.new Group.small 3 2 1 [3, 0, 5] = (.ok start, []) := rfl
  have hlog : start.accepted [third, wrong, second] = [third, second] := by decide +kernel
  have hothers : start.accepted [second, third] = [second, third] := by decide +kernel
  obtain ⟨_, hcollected, _, _, hcalls, _, hfinish, horder⟩ :=
    collects_shares hnew [third, wrong, second]
  obtain ⟨_, _, _, _, _, hempty, _⟩ := collects_shares hnew [third]
  obtain ⟨share, hshare, _, hindex, hthreshold, hvalue⟩ := hfinish (by decide)
  refine ⟨hnew, hlog ▸ hcollected, ?_, hempty (by decide),
    ⟨share, hshare, hindex, hthreshold, hvalue.trans (by decide)⟩, horder [second, third] ?_⟩
  · exact (hcalls ⟨3, 1, 4⟩ ⟨[16, 8]⟩).2 rfl (.inr (by rw [hlog]; decide)) rfl
  · rw [hlog, hothers]
    exact .swap _ _ _

end Authority

end SecretBallot
