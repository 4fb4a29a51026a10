import Mathlib
import SecretBallot.Proofs.Supply

namespace SecretBallot

namespace Bytes

/-- The byte strings of one length. -/
def buffers (length : Nat) : Set Bytes :=
  {buffer | buffer.length = length}

/-- Buffers whose numbers have their lower bits in a set: for each member one for every choice of
    the bits above. -/
theorem ncard_buffers_mod {length low high : Nat} (hlength : low + high = 8 * length)
    (values : Finset Nat) (hvalues : ∀ value ∈ values, value < 2 ^ low) :
    {buffer ∈ buffers length | toNatBE buffer % 2 ^ low ∈ values}.ncard =
      values.card * 2 ^ high := by
  have hpower : 256 ^ length = 2 ^ low * 2 ^ high := by
    rw [← Nat.pow_add, hlength, Nat.pow_mul]
  have hbij : Set.BijOn (fun buffer => (toNatBE buffer % 2 ^ low, toNatBE buffer / 2 ^ low))
      {buffer ∈ buffers length | toNatBE buffer % 2 ^ low ∈ values}
      (values ×ˢ Finset.range (2 ^ high) : Finset (Nat × Nat)) := by
    refine ⟨?_, ?_, ?_⟩
    · rintro buffer ⟨rfl, hvalue⟩
      refine Finset.mem_coe.2 (Finset.mk_mem_product hvalue (Finset.mem_range.2 ?_))
      exact Nat.div_lt_of_lt_mul (hpower ▸ toNatBE_lt buffer)
    · rintro buffer ⟨hbuffer, _⟩ other ⟨hother, _⟩ heq
      obtain ⟨hlow, hhigh⟩ := Prod.mk.inj heq
      have hnumber : toNatBE buffer = toNatBE other := by
        rw [← Nat.mod_add_div (toNatBE buffer) (2 ^ low), hlow, hhigh, Nat.mod_add_div]
      rw [← ofNatBE_toNatBE buffer, ← ofNatBE_toNatBE other, hnumber, hbuffer, hother]
    · rintro ⟨value, above⟩ hmem
      obtain ⟨hvalue, habove⟩ := Finset.mem_product.1 (Finset.mem_coe.1 hmem)
      have hlow := hvalues value hvalue
      have hnumber : value + 2 ^ low * above < 256 ^ length := by
        rw [hpower]
        calc value + 2 ^ low * above < 2 ^ low + 2 ^ low * above := Nat.add_lt_add_right hlow _
          _ = 2 ^ low * (above + 1) := by ring
          _ ≤ 2 ^ low * 2 ^ high := Nat.mul_le_mul_left _ (Finset.mem_range.1 habove)
      have hread : toNatBE (ofNatBE length (value + 2 ^ low * above)) =
          value + 2 ^ low * above := by
        rw [toNatBE_ofNatBE, Nat.mod_eq_of_lt hnumber]
      have hmod : (value + 2 ^ low * above) % 2 ^ low = value := by
        rw [Nat.add_mul_mod_self_left, Nat.mod_eq_of_lt hlow]
      have hdiv : (value + 2 ^ low * above) / 2 ^ low = above := by
        rw [Nat.add_mul_div_left _ _ (Nat.two_pow_pos low), Nat.div_eq_of_lt hlow, Nat.zero_add]
      refine ⟨ofNatBE length (value + 2 ^ low * above), ⟨length_ofNatBE _ _, ?_⟩, ?_⟩
      · rwa [hread, hmod]
      · dsimp only
        rw [hread, hmod, hdiv]
  rw [hbij.ncard_eq, Set.ncard_coe_finset, Finset.card_product, Finset.card_range]

theorem ncard_buffers (length : Nat) : (buffers length).ncard = 256 ^ length := by
  have hcount := ncard_buffers_mod (Nat.zero_add (8 * length)) {0} fun value hvalue => by
    rw [Finset.mem_singleton.1 hvalue]
    exact Nat.two_pow_pos 0
  simp only [pow_zero, Nat.mod_one, Finset.mem_singleton, and_true, Finset.card_singleton,
    one_mul, Nat.pow_mul] at hcount
  exact hcount

end Bytes

namespace Draw

open SecretBallot.Action SecretBallot.Bytes

variable {bound : Nat} {supply : Bytes}

/-- At the front of any supply, the buffer alone is taken and the value returned. -/
def Accepts (bound : Nat) (buffer : Bytes) (value : Nat) : Prop :=
  ∀ rest, below bound (buffer ++ rest) = (.ok value, rest)

/-- At the front of any supply, the buffer is passed over. -/
def Rejects (bound : Nat) (buffer : Bytes) : Prop :=
  ∀ rest, below bound (buffer ++ rest) = below bound rest

theorem retryUpTo_attempt_of_short (hshort : supply.length < tryLength bound) (tries : Nat) :
    retryUpTo (attempt bound) (· < bound) (tries + 1) supply = (.error .exhausted, supply) := by
  rw [retryUpTo, bind_apply, attempt, bind_apply, bytes_apply, if_neg (not_le.2 hshort)]

section Tries

variable (hbound : bound ≠ 0)

include hbound

/-- How many tries there are makes no difference if they are more than the bytes. -/
theorem retryUpTo_attempt_congr {tries others : Nat} (htries : supply.length < tries)
    (hothers : supply.length < others) :
    retryUpTo (attempt bound) (· < bound) tries supply =
      retryUpTo (attempt bound) (· < bound) others supply := by
  have hpos := tryLength_pos hbound
  -- a try that is not the last one leaves fewer bytes
  induction tries generalizing supply others with
  | zero => cases htries
  | succ tries ih =>
    obtain ⟨others, rfl⟩ := Nat.exists_eq_add_one_of_ne_zero (Nat.ne_zero_of_lt hothers)
    by_cases hshort : supply.length < tryLength bound
    · rw [retryUpTo_attempt_of_short hshort, retryUpTo_attempt_of_short hshort]
    · have hbuffer : supply.take (tryLength bound) ∈ buffers (tryLength bound) :=
        List.length_take_of_le (not_lt.1 hshort)
      have hless : (supply.drop (tryLength bound)).length < supply.length := by
        rw [List.length_drop]
        omega
      have hrest := ih (hless.trans_le (Nat.le_of_lt_succ htries))
        (hless.trans_le (Nat.le_of_lt_succ hothers))
      rw [← List.take_append_drop (tryLength bound) supply,
        retryUpTo_attempt_append hbound hbuffer, retryUpTo_attempt_append hbound hbuffer, hrest]

theorem below_nil : below bound [] = (.error .exhausted, []) := by
  have hshort : ([] : Bytes).length < tryLength bound := tryLength_pos hbound
  rw [below_eq_retryUpTo hbound, retryUpTo_attempt_of_short hshort]

/-- What one buffer does at the front of a supply. -/
theorem below_buffer_append {buffer : Bytes} (hbuffer : buffer ∈ buffers (tryLength bound))
    (rest : Bytes) : below bound (buffer ++ rest) =
      if candidate bound buffer < bound then (.ok (candidate bound buffer), rest)
      else below bound rest := by
  have hpos := tryLength_pos hbound
  have hlength : buffer.length = tryLength bound := hbuffer
  have hmore : rest.length < (buffer ++ rest).length := by
    rw [List.length_append]
    omega
  rw [below_eq_retryUpTo hbound, below_eq_retryUpTo hbound,
    retryUpTo_attempt_append hbound hbuffer,
    retryUpTo_attempt_congr hbound hmore (Nat.lt_succ_self _)]

section Buffer

variable {buffer : Bytes} (hbuffer : buffer ∈ buffers (tryLength bound))

include hbuffer

theorem accepts_iff {value : Nat} :
    Accepts bound buffer value ↔ value < bound ∧ candidate bound buffer = value := by
  constructor
  · intro haccepts
    have hrun := haccepts []
    rw [below_buffer_append hbound hbuffer] at hrun
    by_cases hbelow : candidate bound buffer < bound
    · rw [if_pos hbelow] at hrun
      cases hrun
      exact ⟨hbelow, rfl⟩
    · rw [if_neg hbelow, below_nil hbound] at hrun
      cases hrun
  · rintro ⟨hbelow, rfl⟩ rest
    rw [below_buffer_append hbound hbuffer, if_pos hbelow]

/-- A buffer is either accepted or rejected. -/
theorem rejects_iff : Rejects bound buffer ↔ bound ≤ candidate bound buffer := by
  constructor
  · intro hrejects
    by_contra hbelow
    have hrun := hrejects []
    rw [below_buffer_append hbound hbuffer, if_pos (not_le.1 hbelow), below_nil hbound] at hrun
    cases hrun
  · intro hle rest
    rw [below_buffer_append hbound hbuffer, if_neg (not_lt.2 hle)]

end Buffer

theorem ncard_accepts {value : Nat} (hvalue : value < bound) :
    {buffer ∈ buffers (tryLength bound) | Accepts bound buffer value}.ncard = 2 ^ excess bound := by
  have hvalues : ∀ other ∈ ({value} : Finset Nat), other < 2 ^ bitLength bound := by
    intro other hother
    rw [Finset.mem_singleton.1 hother]
    exact hvalue.trans (lt_two_pow_bitLength bound)
  rw [← one_mul (2 ^ excess bound), ← Finset.card_singleton value,
    ← ncard_buffers_mod (bitLength_add_excess bound) {value} hvalues]
  congr 1
  ext buffer
  simp only [Set.mem_sep_iff, Finset.mem_singleton]
  refine and_congr_right fun hbuffer => ?_
  rw [accepts_iff hbound hbuffer, and_iff_right hvalue, candidate]

/-- The numbers of a try that the bound excludes are no more than those it allows. -/
theorem two_mul_ncard_rejects :
    2 * {buffer ∈ buffers (tryLength bound) | Rejects bound buffer}.ncard ≤
      256 ^ tryLength bound := by
  have hrejects : {buffer ∈ buffers (tryLength bound) | Rejects bound buffer} =
      {buffer ∈ buffers (tryLength bound) |
        toNatBE buffer % 2 ^ bitLength bound ∈ Finset.Ico bound (2 ^ bitLength bound)} := by
    ext buffer
    simp only [Set.mem_sep_iff, Finset.mem_Ico]
    refine and_congr_right fun hbuffer => ?_
    have hlt : toNatBE buffer % 2 ^ bitLength bound < 2 ^ bitLength bound :=
      Nat.mod_lt _ (Nat.two_pow_pos _)
    rw [rejects_iff hbound hbuffer, candidate, and_iff_left hlt]
  have hhalf : 2 ^ bitLength bound ≤ 2 * bound := by
    rw [bitLength, if_neg hbound, Nat.pow_succ, Nat.mul_comm]
    exact Nat.mul_le_mul_left 2 (Nat.log2_self_le hbound)
  have hall : 256 ^ tryLength bound = 2 ^ bitLength bound * 2 ^ excess bound := by
    rw [← Nat.pow_add, bitLength_add_excess, Nat.pow_mul]
  have hexcluded : 2 * (2 ^ bitLength bound - bound) ≤ 2 ^ bitLength bound := by
    have := Nat.two_pow_pos (bitLength bound)
    omega
  rw [hrejects, ncard_buffers_mod (bitLength_add_excess bound) _ fun value hvalue =>
    (Finset.mem_Ico.1 hvalue).2, Nat.card_Ico, hall, ← Nat.mul_assoc]
  exact Nat.mul_le_mul_right _ hexcluded

end Tries

/-- The bytes that the try with the given number takes. -/
def tried (bound : Nat) (supply : Bytes) (number : Nat) : Bytes :=
  (supply.drop (number * tryLength bound)).take (tryLength bound)

theorem tried_append_drop (bound : Nat) (supply : Bytes) (number : Nat) :
    tried bound supply number ++ supply.drop ((number + 1) * tryLength bound) =
      supply.drop (number * tryLength bound) := by
  rw [tried, Nat.succ_mul, ← List.drop_drop, List.take_append_drop]

/-- Tries before one that has its bytes have theirs. -/
theorem tried_mem_buffers_of_le {number earlier : Nat} (hle : earlier ≤ number)
    (htried : tried bound supply number ∈ buffers (tryLength bound)) :
    tried bound supply earlier ∈ buffers (tryLength bound) := by
  have hbefore := Nat.mul_le_mul_right (tryLength bound) hle
  change (tried bound supply number).length = _ at htried
  change (tried bound supply earlier).length = _
  rw [tried, List.length_take, List.length_drop] at htried ⊢
  omega

/-- Buffers that are rejected are passed over one after the other. -/
theorem below_drop {number : Nat} (hrejects : ∀ earlier < number,
    Rejects bound (tried bound supply earlier)) :
    below bound supply = below bound (supply.drop (number * tryLength bound)) := by
  induction number with
  | zero => rw [Nat.zero_mul, List.drop_zero]
  | succ number ih =>
    rw [ih fun earlier hlt => hrejects earlier (Nat.lt_succ_of_lt hlt),
      ← tried_append_drop, hrejects number (Nat.lt_succ_self number)]

theorem below_of_first {number value : Nat}
    (hrejects : ∀ earlier < number, Rejects bound (tried bound supply earlier))
    (haccepts : Accepts bound (tried bound supply number) value) :
    below bound supply = (.ok value, supply.drop ((number + 1) * tryLength bound)) := by
  rw [below_drop hrejects, ← tried_append_drop, haccepts]

/-- The buffers of one try are all strings of its length. Such a buffer is accepted with the number
    that is read from it, its excess bits cleared, if that is below the bound, and rejected
    otherwise. Every number below the bound is returned for as many buffers as the excess bits can
    be chosen, and no more than half of the buffers are rejected. If some try of a supply is
    accepted, the draw returns the number of the first one that is, and has taken the bytes up to
    its end. -/
theorem below_uniform {bound : Nat} (hbound : 1 ≤ bound) :
    (buffers (tryLength bound)).ncard = 256 ^ tryLength bound ∧
    (∀ buffer ∈ buffers (tryLength bound),
      (∀ value, Accepts bound buffer value ↔
        value < bound ∧ toNatBE (clearLeading (excess bound) buffer) = value) ∧
      (Rejects bound buffer ↔ ∀ value, ¬ Accepts bound buffer value)) ∧
    (∀ value < bound,
      {buffer ∈ buffers (tryLength bound) | Accepts bound buffer value}.ncard =
        2 ^ excess bound) ∧
    2 * {buffer ∈ buffers (tryLength bound) | Rejects bound buffer}.ncard ≤
      256 ^ tryLength bound ∧
    ∀ supply, (∃ number value, tried bound supply number ∈ buffers (tryLength bound) ∧
        Accepts bound (tried bound supply number) value) →
      ∃ number, ∃ value < bound, tried bound supply number ∈ buffers (tryLength bound) ∧
        Accepts bound (tried bound supply number) value ∧
        (∀ earlier < number, Rejects bound (tried bound supply earlier)) ∧
        below bound supply = (.ok value, supply.drop ((number + 1) * tryLength bound)) := by
  have hne : bound ≠ 0 := Nat.one_le_iff_ne_zero.1 hbound
  have hrejects (buffer : Bytes) (hbuffer : buffer ∈ buffers (tryLength bound)) :
      Rejects bound buffer ↔ ∀ value, ¬ Accepts bound buffer value := by
    rw [rejects_iff hne hbuffer]
    constructor
    · intro hle value haccepts
      obtain ⟨hlt, rfl⟩ := (accepts_iff hne hbuffer).1 haccepts
      exact absurd hlt (not_lt.2 hle)
    · intro hnone
      by_contra hlt
      exact hnone _ ((accepts_iff hne hbuffer).2 ⟨not_le.1 hlt, rfl⟩)
  refine ⟨ncard_buffers _, fun buffer hbuffer => ⟨fun value => ?_, hrejects buffer hbuffer⟩,
    fun value hvalue => ncard_accepts hne hvalue, two_mul_ncard_rejects hne, fun supply hsome => ?_⟩
  · rw [accepts_iff hne hbuffer, candidate_eq_clearLeading hbuffer]
  · classical
    obtain ⟨value, htried, haccepts⟩ := Nat.find_spec hsome
    have hearlier : ∀ earlier < Nat.find hsome, Rejects bound (tried bound supply earlier) := by
      intro earlier hlt
      have hbuffer := tried_mem_buffers_of_le hlt.le htried
      refine (hrejects _ hbuffer).2 fun other hother => ?_
      exact Nat.find_min hsome hlt ⟨other, hbuffer, hother⟩
    exact ⟨Nat.find hsome, value, ((accepts_iff hne htried).1 haccepts).1, htried, haccepts,
      hearlier, below_of_first hearlier haccepts⟩

/-- Below 257 a try reads two bytes and clears seven bits. The first try of the supply reads 511,
    the second one 256. -/
theorem below_uniform_twoBytes :
    1 ≤ 257 ∧ tryLength 257 = 2 ∧ excess 257 = 7 ∧ (buffers 2).ncard = 65536 ∧
      Rejects 257 [255, 255] ∧ Accepts 257 [129, 0] 256 ∧
      {buffer ∈ buffers 2 | Accepts 257 buffer 256}.ncard = 128 ∧
      2 * {buffer ∈ buffers 2 | Rejects 257 buffer}.ncard ≤ 65536 ∧
      ∃ number, ∃ value < 257, below 257 [255, 255, 129, 0, 9] =
        (.ok value, List.drop ((number + 1) * 2) [255, 255, 129, 0, 9]) := by
  have hlength : tryLength 257 = 2 := by decide
  have hexcess : excess 257 = 7 := by decide
  have hbound : 1 ≤ 257 := by decide
  obtain ⟨hall, hbuffers, hcount, hhalf, hstream⟩ := below_uniform hbound
  simp only [hlength, hexcess] at hall hbuffers hcount hhalf hstream
  have haccepts : Accepts 257 [129, 0] 256 := ((hbuffers [129, 0] rfl).1 256).2 (by decide)
  have hrejects : Rejects 257 [255, 255] := by
    refine (hbuffers [255, 255] rfl).2.2 fun value haccepted => ?_
    obtain ⟨hlt, rfl⟩ := ((hbuffers [255, 255] rfl).1 value).1 haccepted
    exact absurd hlt (by decide)
  obtain ⟨number, value, hvalue, _, _, _, hrun⟩ :=
    hstream [255, 255, 129, 0, 9] ⟨1, 256, rfl, haccepts⟩
  exact ⟨hbound, hlength, hexcess, hall, hrejects, haccepts, hcount 256 (by decide), hhalf,
    number, value, hvalue, hrun⟩

end Draw

end SecretBallot
