import Mathlib
import SecretBallot.Sampling
import SecretBallot.Sharing.Polynomial
import SecretBallot.Proofs.Digits
import SecretBallot.Proofs.Outcome

namespace SecretBallot

namespace Draw

variable {α : Type} {supply rest : Bytes}

theorem retryUpTo_eq_ok {draw : Draw α} {accept : α → Bool} {tries : Nat} {value : α}
    (hrun : retryUpTo draw accept tries supply = (.ok value, rest)) :
    accept value = true ∧ ∃ before after, draw before = (.ok value, after) := by
  induction tries generalizing supply with
  | zero =>
    rw [retryUpTo] at hrun
    cases hrun
  | succ tries ih =>
    rw [retryUpTo] at hrun
    obtain ⟨drawn, between, hdraw, hrun⟩ := Action.bind_eq_ok_iff.1 hrun
    by_cases haccept : accept drawn = true
    · rw [if_pos haccept, Action.pure_eq_ok_iff] at hrun
      obtain ⟨rfl, _⟩ := hrun
      exact ⟨haccept, supply, between, hdraw⟩
    · rw [if_neg haccept] at hrun
      exact ih hrun

theorem retry_eq_ok {draw : Draw α} {accept : α → Bool} {value : α}
    (hrun : retry draw accept supply = (.ok value, rest)) :
    accept value = true ∧ ∃ before after, draw before = (.ok value, after) := by
  rw [retry, Action.get_bind_apply] at hrun
  exact retryUpTo_eq_ok hrun

theorem exponent_lt {group : Group} {value : Nat}
    (hrun : exponent group supply = (.ok value, rest)) : value < group.q := by
  rw [exponent, below] at hrun
  obtain ⟨_, _, _, hretry⟩ := Action.bind_eq_ok_iff.1 hrun
  exact of_decide_eq_true (retry_eq_ok hretry).1

theorem nonzeroExponent_spec {group : Group} {value : Nat}
    (hrun : nonzeroExponent group supply = (.ok value, rest)) :
    value ≠ 0 ∧ value < group.q := by
  rw [nonzeroExponent] at hrun
  obtain ⟨haccept, _, _, hdraw⟩ := retry_eq_ok hrun
  exact ⟨of_decide_eq_true haccept, exponent_lt hdraw⟩

theorem exponents_spec {group : Group} {count : Nat} {values : List Nat}
    (hrun : exponents group count supply = (.ok values, rest)) :
    values.length = count ∧ ∀ value ∈ values, value < group.q := by
  induction count generalizing values supply rest with
  | zero =>
    rw [exponents, Action.pure_eq_ok_iff] at hrun
    rw [← hrun.1]
    exact ⟨List.length_nil, List.forall_mem_nil _⟩
  | succ count ih =>
    rw [exponents] at hrun
    obtain ⟨first, _, hfirst, hrun⟩ := Action.bind_eq_ok_iff.1 hrun
    obtain ⟨others, _, hothers, hpure⟩ := Action.bind_eq_ok_iff.1 hrun
    obtain ⟨rfl, _⟩ := Action.pure_eq_ok_iff.1 hpure
    obtain ⟨hlength, hreduced⟩ := ih hothers
    exact ⟨congrArg (· + 1) hlength, List.forall_mem_cons.2 ⟨exponent_lt hfirst, hreduced⟩⟩

theorem bytes_append {chunk : Bytes} {count : Nat} (hlength : chunk.length = count) (rest : Bytes) :
    bytes count (chunk ++ rest) = (.ok chunk, rest) := by
  subst hlength
  rw [bytes, Action.get_bind_apply, List.take_left, if_pos rfl, List.drop_left]
  rfl

theorem tryLength_pos {bound : Nat} (hbound : bound ≠ 0) : 0 < tryLength bound := by
  rw [tryLength, bitLength, if_neg hbound]
  omega

theorem bitLength_add_excess (bound : Nat) :
    bitLength bound + excess bound = 8 * tryLength bound := by
  rw [excess, tryLength]
  omega

theorem excess_lt (bound : Nat) : excess bound < 8 := by
  rw [excess, tryLength]
  omega

/-- The number that a try reads from its bytes. -/
def candidate (bound : Nat) (chunk : Bytes) : Nat :=
  chunk.toNatBE % 2 ^ bitLength bound

/-- A try reads its bytes with the excess bits cleared. -/
theorem candidate_eq_clearLeading {bound : Nat} {chunk : Bytes}
    (hlength : chunk.length = tryLength bound) :
    candidate bound chunk = (chunk.clearLeading (excess bound)).toNatBE := by
  have hbits : bitLength bound = 8 * chunk.length - excess bound := by
    have hsum := bitLength_add_excess bound
    omega
  rw [candidate, Bytes.toNatBE_clearLeading (excess_lt bound), ← hbits]

section Tries

variable {bound : Nat} (hbound : bound ≠ 0) {chunk : Bytes}
  (hlength : chunk.length = tryLength bound)

include hbound hlength

/-- The bytes of a try have a first one. -/
theorem attempt_append (rest : Bytes) :
    attempt bound (chunk ++ rest) = (.ok (candidate bound chunk), rest) := by
  obtain ⟨first, others, rfl⟩ :=
    List.exists_cons_of_length_pos (hlength ▸ tryLength_pos hbound)
  have hfirst : entryAt (first :: others) 0 = .ok first := entryAt_eq_ok_iff.2 rfl
  have hcleared : replaceAt (first :: others) 0 (first &&& (0xff >>> UInt8.ofNat (excess bound))) =
      .ok (Bytes.clearLeading (excess bound) (first :: others)) :=
    replaceAt_eq_ok_iff.2 ⟨Nat.zero_lt_succ _, rfl⟩
  rw [attempt, Action.bind_of_ok (bytes_append hlength rest), Action.lift_bind_apply, hfirst]
  dsimp only
  rw [Action.lift_bind_apply, hcleared, candidate_eq_clearLeading hlength]
  rfl

/-- One more try: a chunk is used up, and the draw ends with it or goes on. -/
theorem retryUpTo_attempt_append (tries : Nat) (rest : Bytes) :
    retryUpTo (attempt bound) (· < bound) (tries + 1) (chunk ++ rest) =
      if candidate bound chunk < bound then (.ok (candidate bound chunk), rest)
      else retryUpTo (attempt bound) (· < bound) tries rest := by
  rw [retryUpTo, Action.bind_of_ok (attempt_append hbound hlength rest)]
  by_cases haccept : candidate bound chunk < bound
  · rw [if_pos (decide_eq_true haccept), if_pos haccept, Action.pure_apply]
  · rw [if_neg (by simpa using haccept), if_neg haccept]

end Tries

theorem below_eq_retryUpTo {bound : Nat} (hbound : bound ≠ 0) (supply : Bytes) :
    below bound supply = retryUpTo (attempt bound) (· < bound) (supply.length + 1) supply := by
  rw [below, Action.lift_bind_apply, require_of _ hbound]
  rfl

/-- A chunk that is accepted at the first try is used up, and nothing else. -/
theorem below_append {bound : Nat} {chunk : Bytes} (hlength : chunk.length = tryLength bound)
    (haccept : candidate bound chunk < bound) (rest : Bytes) :
    below bound (chunk ++ rest) = (.ok (candidate bound chunk), rest) := by
  have hbound := Nat.ne_zero_of_lt haccept
  rw [below_eq_retryUpTo hbound, retryUpTo_attempt_append hbound hlength, if_pos haccept]

theorem lt_two_pow_bitLength (n : Nat) : n < 2 ^ bitLength n := by
  rw [bitLength]
  by_cases hzero : n = 0
  · rw [if_pos hzero, hzero]
    exact Nat.one_pos
  · rw [if_neg hzero]
    exact Nat.lt_log2_self

/-- A number below the bound is read from its own digits. -/
theorem candidate_ofNatBE {bound value : Nat} (hvalue : value < bound) :
    candidate bound (Bytes.ofNatBE (tryLength bound) value) = value := by
  have hbits : value < 2 ^ bitLength bound := hvalue.trans (lt_two_pow_bitLength bound)
  have hdigits : 2 ^ bitLength bound ≤ 256 ^ tryLength bound := by
    calc 2 ^ bitLength bound ≤ 2 ^ (8 * tryLength bound) :=
          Nat.pow_le_pow_right (by decide) (bitLength_add_excess bound ▸ Nat.le_add_right _ _)
      _ = 256 ^ tryLength bound := by rw [Nat.pow_mul]
  rw [candidate, Bytes.toNatBE_ofNatBE, Nat.mod_eq_of_lt (hbits.trans_le hdigits),
    Nat.mod_eq_of_lt hbits]

section CanYield

variable {β : Type}

/-- A draw can yield a value: for some bytes at the front of the supply it returns this value, and
    takes these bytes. -/
def CanYield (draw : Draw α) (value : α) : Prop :=
  ∃ taken, ∀ rest, draw (taken ++ rest) = (.ok value, rest)

theorem canYield_pure (value : α) : (pure value : Draw α).CanYield value :=
  ⟨[], fun _ => rfl⟩

theorem CanYield.bind {draw : Draw α} {next : α → Draw β} {value : α} {result : β}
    (hdraw : draw.CanYield value) (hnext : (next value).CanYield result) :
    (draw >>= next).CanYield result := by
  obtain ⟨first, hfirst⟩ := hdraw
  obtain ⟨second, hsecond⟩ := hnext
  refine ⟨first ++ second, fun rest => ?_⟩
  rw [List.append_assoc, Action.bind_of_ok (hfirst _)]
  exact hsecond rest

theorem canYield_mapM {f : α → Draw β} {list : List α} {results : List β}
    (hf : List.Forall₂ (fun element result => (f element).CanYield result) list results) :
    (list.mapM f).CanYield results := by
  induction hf with
  | nil =>
    rw [List.mapM_nil]
    exact canYield_pure []
  | cons hhead _ ih =>
    rw [List.mapM_cons]
    exact hhead.bind (ih.bind (canYield_pure _))

theorem canYield_exponent {group : Group} {value : Nat} (hvalue : value < group.q) :
    (exponent group).CanYield value := by
  have hcandidate := candidate_ofNatBE hvalue
  refine ⟨Bytes.ofNatBE (tryLength group.q) value, fun rest => ?_⟩
  have hbelow := below_append (Bytes.length_ofNatBE _ _) (hcandidate.symm ▸ hvalue) rest
  rwa [hcandidate] at hbelow

end CanYield

end Draw

/-- A drawn polynomial has the secret as its constant term and as many coefficients as its degree
    allows, all of them reduced. -/
theorem Polynomial.sample_spec {group : Group} {degree secret : Nat} {polynomial : Polynomial}
    {supply rest : Bytes}
    (hrun : Polynomial.sample group degree secret supply = (.ok polynomial, rest)) :
    ∃ others, polynomial.coefficients = secret % group.q :: others ∧ others.length = degree ∧
      ∀ other ∈ others, other < group.q := by
  rw [sample] at hrun
  obtain ⟨drawn, _, hdrawn, hrun⟩ := Action.bind_eq_ok_iff.1 hrun
  obtain ⟨coefficients, _, hreplace, hpure⟩ := Action.bind_eq_ok_iff.1 hrun
  obtain ⟨rfl, _⟩ := Action.pure_eq_ok_iff.1 hpure
  obtain ⟨_, rfl⟩ := replaceAt_eq_ok_iff.1 (Action.lift_apply_eq_ok_iff.1 hreplace).1
  obtain ⟨hlength, hreduced⟩ := Draw.exponents_spec hdrawn
  obtain ⟨first, others, rfl⟩ := List.exists_cons_of_length_eq_add_one hlength
  exact ⟨others, rfl, Nat.succ.inj hlength, (List.forall_mem_cons.1 hreduced).2⟩

end SecretBallot
