import Mathlib
import SecretBallot.Ceremony.Authority
import SecretBallot.Proofs.Key
import SecretBallot.Proofs.Sampling
import SecretBallot.Proofs.Sharing.Polynomial

section

open Polynomial

namespace SecretBallot

theorem toNat_ofNat_succ {n : UInt64} {i : Nat} (hi : i < n.toNat) :
    (UInt64.ofNat (i + 1)).toNat = i + 1 := by
  have hlt : i + 1 < UInt64.size := (Nat.succ_le_of_lt hi).trans_lt n.toNat_lt
  exact UInt64.toNat_ofNat_of_lt' hlt

theorem length_authorityIndices (n : UInt64) : (authorityIndices n).length = n.toNat := by
  rw [authorityIndices, List.length_map, List.length_range]

theorem map_toNat_authorityIndices (n : UInt64) :
    (authorityIndices n).map UInt64.toNat = List.range' 1 n.toNat := by
  rw [authorityIndices, List.map_map, List.range'_eq_map_range]
  apply List.map_congr_left
  intro i hi
  rw [Function.comp_apply, toNat_ofNat_succ (List.mem_range.1 hi), Nat.add_comm]

/-- The indices are the numbers from one to `n`, each of them once. -/
theorem mem_authorityIndices {n index : UInt64} :
    index ∈ authorityIndices n ↔ 1 ≤ index.toNat ∧ index.toNat ≤ n.toNat := by
  have hinj : Function.Injective UInt64.toNat := fun _ _ => UInt64.toNat_inj.1
  rw [← List.mem_map_of_injective hinj, map_toNat_authorityIndices, List.mem_range'_1]
  omega

theorem nodup_authorityIndices (n : UInt64) : (authorityIndices n).Nodup := by
  apply List.Nodup.of_map UInt64.toNat
  rw [map_toNat_authorityIndices]
  exact List.nodup_range'

/-- The index of the slot of an authority. -/
theorem toNat_sub_one {index : UInt64} (hindex : 1 ≤ index) :
    (index - 1).toNat = index.toNat - 1 :=
  UInt64.toNat_sub_of_le _ _ hindex

namespace Authority

/-- The slots of `n` dealers, filled for one of them. -/
def slots (n index : UInt64) (value : Nat) : List (Option Nat) :=
  (List.replicate n.toNat none).set (index.toNat - 1) (some value)

/-- An authority as it is created: only its own slots are filled. -/
structure Fresh (authority : Authority) (group : Group) (n t index : UInt64) : Prop where
  group_eq : authority.group = group
  index_eq : authority.index = index
  n_eq : authority.n = n
  t_eq : authority.t = t
  index_pos : 1 ≤ index
  index_le : index ≤ n
  t_ne_zero : t ≠ 0
  t_le : t ≤ n
  n_lt_q : n.toNat < group.q
  secret_ne_zero : authority.key.x ≠ 0
  secret_lt_q : authority.key.x < group.q
  key_index : authority.key.index = index
  key_h : authority.key.h = group.powG authority.key.x
  coefficients : ∃ others, authority.polynomial.coefficients = authority.key.x :: others ∧
    others.length = t.toNat - 1
  received : authority.received =
    slots n index (authority.polynomial.evaluate group index.toNat)
  committed : authority.committed = slots n index authority.key.h

theorem fresh_of_new {group : Group} {n t index : UInt64} {authority : Authority}
    {supply rest : Bytes}
    (hnew : Authority.new group n t index supply = (.ok authority, rest)) :
    authority.Fresh group n t index := by
  rw [Authority.new] at hnew
  obtain ⟨_, _, hparameters, hnew⟩ := Action.bind_eq_ok_iff.1 hnew
  obtain ⟨key, _, hkey, hnew⟩ := Action.bind_eq_ok_iff.1 hnew
  obtain ⟨polynomial, _, hpolynomial, hnew⟩ := Action.bind_eq_ok_iff.1 hnew
  obtain ⟨received, _, hreceived, hnew⟩ := Action.bind_eq_ok_iff.1 hnew
  obtain ⟨committed, _, hcommitted, hpure⟩ := Action.bind_eq_ok_iff.1 hnew
  rw [Action.liftExcept_apply, Prod.mk.injEq, lift_eq_ok_iff, ensure_eq_ok_iff] at hparameters
  obtain ⟨⟨hpos, hle, ht, htle, hq⟩, _⟩ := hparameters
  rw [AuthorityKey.generate] at hkey
  obtain ⟨x, _, hx, hkey⟩ := Action.bind_eq_ok_iff.1 hkey
  rw [Action.pure_eq_ok_iff] at hkey hpure
  obtain ⟨rfl, _⟩ := hkey
  obtain ⟨rfl, _⟩ := hpure
  obtain ⟨hne, hlt⟩ := Draw.nonzeroExponent_spec hx
  obtain ⟨others, hcoefficients, hlength, _⟩ := Polynomial.sample_spec hpolynomial
  rw [Nat.mod_eq_of_lt hlt] at hcoefficients
  rw [Action.lift_apply_eq_ok_iff, replaceAt_eq_ok_iff, toNat_sub_one hpos]
    at hreceived hcommitted
  exact ⟨rfl, rfl, rfl, rfl, hpos, hle, ht, htle, hq, hne, hlt, rfl, rfl,
    ⟨others, hcoefficients, hlength⟩, hreceived.1.2.symm, hcommitted.1.2.symm⟩

section Fresh

variable {authority : Authority} {group : Group} {n t index : UInt64}

theorem Fresh.t_toNat_ne_zero (hfresh : authority.Fresh group n t index) : t.toNat ≠ 0 :=
  fun hzero => hfresh.t_ne_zero (UInt64.toNat_inj.1 hzero)

theorem Fresh.index_mem (hfresh : authority.Fresh group n t index) :
    index ∈ authorityIndices n := by
  rw [mem_authorityIndices]
  exact ⟨UInt64.le_iff_toNat_le.1 hfresh.index_pos, UInt64.le_iff_toNat_le.1 hfresh.index_le⟩

theorem Fresh.index_ne_zero (hfresh : authority.Fresh group n t index) : index ≠ 0 := by
  rintro rfl
  exact absurd (mem_authorityIndices.1 hfresh.index_mem).1 (by decide)

theorem Fresh.index_lt_q (hfresh : authority.Fresh group n t index) : index.toNat < group.q :=
  (mem_authorityIndices.1 hfresh.index_mem).2.trans_lt hfresh.n_lt_q

theorem Fresh.length_coefficients (hfresh : authority.Fresh group n t index) :
    authority.polynomial.coefficients.length = t.toNat := by
  obtain ⟨others, hcoefficients, hlength⟩ := hfresh.coefficients
  have ht := hfresh.t_toNat_ne_zero
  rw [hcoefficients, List.length_cons, hlength]
  omega

/-- The constant term of the polynomial is the secret. -/
theorem Fresh.eval_zero (hfresh : authority.Fresh group n t index) :
    (group.polynomial authority.polynomial.coefficients).eval 0 = authority.key.x := by
  obtain ⟨others, hcoefficients, _⟩ := hfresh.coefficients
  rw [hcoefficients, Group.eval_zero_polynomial]

theorem Fresh.length_received (hfresh : authority.Fresh group n t index) :
    authority.received.length = n.toNat := by
  rw [hfresh.received, slots, List.length_set, List.length_replicate]

theorem Fresh.length_committed (hfresh : authority.Fresh group n t index) :
    authority.committed.length = n.toNat := by
  rw [hfresh.committed, slots, List.length_set, List.length_replicate]

end Fresh

/-- An authority that has taken in a share. -/
def store (authority : Authority) (share : SecretShare) (commitment : Commitment) : Authority :=
  { authority with
    received := authority.received.set (share.dealer.toNat - 1) (some share.value)
    committed := authority.committed.set (share.dealer.toNat - 1) commitment.publicShare }

/-- What it takes for a share to be accepted. -/
structure Accepts (authority : Authority) (share : SecretShare) (commitment : Commitment) :
    Prop where
  recipient : share.recipient = authority.index
  dealer : 1 ≤ share.dealer ∧ share.dealer ≤ authority.n
  size : commitment.elements.length = authority.t.toNat
  vacant : authority.received[share.dealer.toNat - 1]? = some none
  committed : share.dealer.toNat - 1 < authority.committed.length
  verifies : commitment.verifyShare authority.group authority.index.toNat share.value = .ok true

/-- What no delivery changes. -/
structure SameSetup (authority start : Authority) : Prop where
  group_eq : authority.group = start.group
  index_eq : authority.index = start.index
  n_eq : authority.n = start.n
  t_eq : authority.t = start.t
  key_eq : authority.key = start.key
  length_received : authority.received.length = start.received.length
  length_committed : authority.committed.length = start.committed.length

theorem SameSetup.refl (authority : Authority) : authority.SameSetup authority :=
  ⟨rfl, rfl, rfl, rfl, rfl, rfl, rfl⟩

theorem SameSetup.store {authority start : Authority} (hsetup : authority.SameSetup start)
    (share : SecretShare) (commitment : Commitment) :
    (authority.store share commitment).SameSetup start := by
  refine ⟨hsetup.group_eq, hsetup.index_eq, hsetup.n_eq, hsetup.t_eq, hsetup.key_eq, ?_, ?_⟩
  · exact List.length_set.trans hsetup.length_received
  · exact List.length_set.trans hsetup.length_committed

/-- A share is taken in if it is accepted, and otherwise nothing changes. -/
theorem receive_cases (share : SecretShare) (commitment : Commitment) (authority : Authority) :
    (authority.Accepts share commitment ∧
      receive share commitment authority = (.ok (), authority.store share commitment)) ∨
    (¬ authority.Accepts share commitment ∧
      ∃ failure, receive share commitment authority = (.error failure, authority)) := by
  change Action.Decides (authority.Accepts share commitment) authority
    (authority.store share commitment) () (receive share commitment authority)
  rw [receive, Action.get_bind_apply]
  refine .ensure_bind (·.recipient) fun hrecipient => ?_
  refine .ensure_bind (·.dealer) fun hdealer => ?_
  refine .ensure_bind (·.size) fun hsize => ?_
  rw [toNat_sub_one hdealer.1]
  refine .lift_bind (fun h => ⟨_, entryAt_eq_ok_iff.2 h.vacant⟩) fun held hheld => ?_
  have hslot := entryAt_eq_ok_iff.1 hheld
  refine .ensure_bind (fun h => Option.some.inj (hslot.symm.trans h.vacant)) fun hvacant => ?_
  refine .lift_bind (fun h => ⟨true, h.verifies⟩) fun verifies hverifies => ?_
  refine .ensure_bind (fun h => Except.ok.inj (hverifies.symm.trans h.verifies)) fun hshare => ?_
  have hrange := (List.getElem?_eq_some_iff.1 hslot).1
  refine .lift_bind (fun _ => ⟨_, replaceAt_eq_ok_iff.2 ⟨hrange, rfl⟩⟩) fun received hreceived => ?_
  refine .lift_bind (fun h => ⟨_, replaceAt_eq_ok_iff.2 ⟨h.committed, rfl⟩⟩)
    fun committed hcommitted => ?_
  obtain ⟨_, rfl⟩ := replaceAt_eq_ok_iff.1 hreceived
  obtain ⟨hcommit, rfl⟩ := replaceAt_eq_ok_iff.1 hcommitted
  exact .inl ⟨⟨hrecipient, hdealer, hsize, hvacant ▸ hslot, hcommit, hshare ▸ hverifies⟩, rfl⟩

theorem receive_of_accepts {share : SecretShare} {commitment : Commitment} {authority : Authority}
    (haccepts : authority.Accepts share commitment) :
    receive share commitment authority = (.ok (), authority.store share commitment) := by
  rcases receive_cases share commitment authority with ⟨_, hrun⟩ | ⟨hnot, _⟩
  · exact hrun
  · exact absurd haccepts hnot

/-- The slots of a dealer hold a share and a public share. -/
structure Holds (authority : Authority) (dealer : UInt64) (value h : Nat) : Prop where
  received : authority.received[dealer.toNat - 1]? = some (some value)
  committed : authority.committed[dealer.toNat - 1]? = some (some h)

/-- A share for a slot that is filled is not accepted. -/
theorem Holds.not_accepts {authority : Authority} {dealer : UInt64} {value h : Nat}
    (hholds : authority.Holds dealer value h) {share : SecretShare} {commitment : Commitment}
    (hslot : share.dealer.toNat - 1 = dealer.toNat - 1) :
    ¬ authority.Accepts share commitment := by
  intro haccepts
  have hvacant := haccepts.vacant
  rw [hslot, hholds.received] at hvacant
  cases hvacant

/-- A filled slot is never overwritten. -/
theorem Holds.store {authority : Authority} {dealer : UInt64} {value h : Nat}
    (hholds : authority.Holds dealer value h) {share : SecretShare} {commitment : Commitment}
    (haccepts : authority.Accepts share commitment) :
    (authority.store share commitment).Holds dealer value h := by
  have hne : share.dealer.toNat - 1 ≠ dealer.toNat - 1 :=
    fun hslot => hholds.not_accepts hslot haccepts
  refine ⟨?_, ?_⟩
  · exact (List.getElem?_set_ne hne).trans hholds.received
  · exact (List.getElem?_set_ne hne).trans hholds.committed

/-- An accepted share fills the slots of its dealer. -/
theorem holds_store {authority start : Authority} {group : Group} {n t index : UInt64}
    (hsetup : authority.SameSetup start) (hfresh : start.Fresh group n t index)
    {share : SecretShare} {commitment : Commitment} {h : Nat}
    (haccepts : authority.Accepts share commitment) (hpublic : commitment.publicShare = some h) :
    (authority.store share commitment).Holds share.dealer share.value h := by
  have hslot : share.dealer.toNat - 1 < authority.received.length :=
    (List.getElem?_eq_some_iff.1 haccepts.vacant).1
  have hlength : authority.committed.length = authority.received.length := by
    rw [hsetup.length_committed, hsetup.length_received, hfresh.length_committed,
      hfresh.length_received]
  refine ⟨?_, ?_⟩
  · exact List.getElem?_set_self hslot
  · refine (List.getElem?_set_self (hlength ▸ hslot)).trans ?_
    rw [hpublic]

/-- A fresh authority has its own share. -/
theorem Fresh.holds {authority : Authority} {group : Group} {n t index : UInt64}
    (hfresh : authority.Fresh group n t index) :
    authority.Holds index (authority.polynomial.evaluate group index.toNat) authority.key.h := by
  have hrange := mem_authorityIndices.1 hfresh.index_mem
  have hslot {value : Nat} : (slots n index value)[index.toNat - 1]? = some (some value) := by
    apply List.getElem?_set_self
    rw [List.length_replicate]
    omega
  exact ⟨hfresh.received ▸ hslot, hfresh.committed ▸ hslot⟩

/-- A public share passes if it is the one that its authority committed to. -/
theorem checkPublicShare_eq_ok_iff {authority : Authority} {share : PublicShare} :
    authority.checkPublicShare share = .ok () ↔
      share.index ≠ 0 ∧ authority.committed[share.index.toNat - 1]? = some (some share.h) := by
  rw [checkPublicShare]
  by_cases hzero : share.index = 0
  · rw [if_pos hzero]
    simp [hzero]
  · rw [if_neg hzero]
    rcases authority.committed[share.index.toNat - 1]? with _ | _ | h
    · simp
    · simp
    · simp [hzero]

section Finish

variable {authority : Authority}

theorem all_isSome_received : authority.received.all Option.isSome = true ↔
    none ∉ authority.received := by
  rw [List.all_eq_true]
  constructor
  · intro hall hnone
    cases hall none hnone
  · intro hfull slot hslot
    rw [Option.isSome_iff_ne_none]
    rintro rfl
    exact hfull hslot

/-- As long as a slot is empty there is no private share. -/
theorem finish_of_none_mem (hnone : none ∈ authority.received) :
    authority.finish = .error (.uninitialized .receivedShares) := by
  have hnot : ¬ authority.received.all Option.isSome = true :=
    fun hall => all_isSome_received.1 hall hnone
  rw [finish, ensure, if_neg hnot]
  rfl

/-- With all slots filled the private share is the sum of what was received. -/
theorem finish_of_none_not_mem (hfull : none ∉ authority.received) (hindex : authority.index ≠ 0)
    (ht : authority.t ≠ 0) (hlt : authority.index.toNat < authority.group.q) :
    ∃ share, authority.finish = .ok share ∧ share.group = authority.group ∧
      share.index = authority.index ∧ share.threshold = authority.t ∧
      share.value = (authority.received.filterMap id).sum % authority.group.q := by
  have hreduced : authority.group.sumQ (authority.received.filterMap id) < authority.group.q := by
    rw [Group.sumQ_eq]
    exact Nat.mod_lt _ authority.group.q_pos
  refine ⟨⟨authority.group, authority.index, authority.t, _, hindex, ht, hlt, hreduced⟩, ?_, rfl,
    rfl, rfl, Group.sumQ_eq _ _⟩
  rw [finish, ensure_of _ (all_isSome_received.2 hfull), ok_bind, PrivateShare.new,
    dif_pos ⟨hindex, ht⟩, dif_pos hlt, dif_pos hreduced]

end Finish

/-- An authority with a share from every dealer: a point on the dealer's polynomial `f`, next to the
    public share `h` of the dealer. -/
structure Complete (authority : Authority) (group : Group) (n t : UInt64)
    (f : UInt64 → (ZMod group.q)[X]) (h : UInt64 → Nat) : Prop where
  group_eq : authority.group = group
  n_eq : authority.n = n
  t_eq : authority.t = t
  length_received : authority.received.length = n.toNat
  length_committed : authority.committed.length = n.toNat
  holds : ∀ dealer ∈ authorityIndices n, ∃ value, authority.Holds dealer value (h dealer) ∧
    (value : ZMod group.q) = (f dealer).eval (authority.index.toNat : ZMod group.q)

/-- A fresh authority is complete as soon as deliveries have filled its slots. -/
theorem complete_of_holds {authority start : Authority} {group : Group} {n t : UInt64}
    {f : UInt64 → (ZMod group.q)[X]} {h : UInt64 → Nat} (hsetup : authority.SameSetup start)
    (hfresh : start.Fresh group n t start.index)
    (hholds : ∀ dealer ∈ authorityIndices n, ∃ value, authority.Holds dealer value (h dealer) ∧
      (value : ZMod group.q) = (f dealer).eval (start.index.toNat : ZMod group.q)) :
    authority.Complete group n t f h where
  group_eq := hsetup.group_eq.trans hfresh.group_eq
  n_eq := hsetup.n_eq.trans hfresh.n_eq
  t_eq := hsetup.t_eq.trans hfresh.t_eq
  length_received := hsetup.length_received.trans hfresh.length_received
  length_committed := hsetup.length_committed.trans hfresh.length_committed
  holds := by
    rw [hsetup.index_eq]
    exact hholds

namespace Complete

variable {authority : Authority} {group : Group} {n t : UInt64}
variable {f : UInt64 → (ZMod group.q)[X]} {h : UInt64 → Nat}

/-- As many public shares pass as there are dealers, each the one of its dealer. Nothing is said of
    how often a dealer occurs. -/
theorem checkPublicShares_eq_ok_iff (hcomplete : authority.Complete group n t f h)
    {shares : List PublicShare} : authority.checkPublicShares shares = .ok () ↔
      shares.length = n.toNat ∧
        ∀ share ∈ shares, share.index ∈ authorityIndices n ∧ share.h = h share.index := by
  have hshare (share : PublicShare) : authority.checkPublicShare share = .ok () ↔
      share.index ∈ authorityIndices n ∧ share.h = h share.index := by
    rw [checkPublicShare_eq_ok_iff]
    constructor
    · rintro ⟨hzero, hslot⟩
      have hmem : share.index ∈ authorityIndices n := by
        have hlt := (List.getElem?_eq_some_iff.1 hslot).1
        have hpos : share.index.toNat ≠ 0 := fun hnat => hzero (UInt64.toNat_inj.1 hnat)
        rw [hcomplete.length_committed] at hlt
        rw [mem_authorityIndices]
        omega
      obtain ⟨_, hholds, _⟩ := hcomplete.holds share.index hmem
      rw [hholds.committed, Option.some.injEq, Option.some.injEq] at hslot
      exact ⟨hmem, hslot.symm⟩
    · rintro ⟨hmem, hvalue⟩
      obtain ⟨_, hholds, _⟩ := hcomplete.holds share.index hmem
      refine ⟨fun hzero => ?_, hvalue ▸ hholds.committed⟩
      rw [hzero, mem_authorityIndices] at hmem
      exact absurd hmem.1 (by decide)
  rw [checkPublicShares]
  change (ensure _ _ >>= fun _ => shares.forM authority.checkPublicShare) = _ ↔ _
  rw [bind_eq_ok_iff, hcomplete.n_eq]
  simp only [ensure_eq_ok_iff, forM_eq_ok_iff, hshare, exists_const]

/-- It finishes with a point on the sum of the dealers' polynomials. -/
theorem finish_eq (hcomplete : authority.Complete group n t f h) (hindex : authority.index ≠ 0)
    (ht : t ≠ 0) (hlt : authority.index.toNat < group.q) :
    ∃ share, authority.finish = .ok share ∧ share.index = authority.index ∧
      share.IsPoint group t ((authorityIndices n).map f).sum := by
  obtain ⟨rfl, rfl, rfl, hlength, _, hholds⟩ := hcomplete
  choose! value hvalue using hholds
  have hreceived : authority.received =
      (authorityIndices authority.n).map fun dealer => some (value dealer) := by
    refine List.ext_getElem? fun slot => ?_
    by_cases hslot : slot < authority.n.toNat
    · have hdealer : (UInt64.ofNat (slot + 1)).toNat = slot + 1 := toNat_ofNat_succ hslot
      have hmem : UInt64.ofNat (slot + 1) ∈ authorityIndices authority.n := by
        rw [mem_authorityIndices, hdealer]
        omega
      have hheld := (hvalue _ hmem).1.received
      rw [hdealer, Nat.add_sub_cancel] at hheld
      rw [hheld, authorityIndices, List.map_map, List.getElem?_map, List.getElem?_range hslot]
      rfl
    · have hle : authority.n.toNat ≤ slot := Nat.not_lt.1 hslot
      rw [List.getElem?_eq_none (hlength ▸ hle), List.getElem?_eq_none]
      rw [List.length_map, length_authorityIndices]
      exact hle
  have hfull : none ∉ authority.received := by
    rw [hreceived, List.mem_map]
    rintro ⟨_, _, hnone⟩
    cases hnone
  have hvalues : authority.received.filterMap id = (authorityIndices authority.n).map value := by
    rw [hreceived, List.filterMap_map]
    exact congrFun List.filterMap_eq_map _
  obtain ⟨share, hfinish, hgroup, hsame, hthreshold, hsum⟩ :=
    finish_of_none_not_mem hfull hindex ht hlt
  refine ⟨share, hfinish, hsame, hgroup, hthreshold, ?_⟩
  rw [hsum, hsame, hvalues, ZMod.natCast_mod, Nat.cast_list_sum, List.map_map, eval_listSum,
    List.map_map]
  congr 1
  apply List.map_congr_left
  intro dealer hdealer
  exact (hvalue dealer hdealer).2

theorem exists_share (hcomplete : authority.Complete group n t f h) {start : Authority}
    (hsetup : authority.SameSetup start) (hfresh : start.Fresh group n t start.index) :
    ∃ share, authority.finish = .ok share ∧ share.index = start.index ∧
      share.IsPoint group t ((authorityIndices n).map f).sum := by
  have hne := hfresh.index_ne_zero
  have hlt := hfresh.index_lt_q
  rw [← hsetup.index_eq] at hne hlt ⊢
  exact hcomplete.finish_eq hne hfresh.t_ne_zero hlt

end Complete

end Authority

end SecretBallot

end
