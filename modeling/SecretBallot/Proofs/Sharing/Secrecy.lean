import Mathlib
import SecretBallot.Proofs.Sampling
import SecretBallot.Proofs.Sharing.Coefficients

section

open Polynomial

namespace SecretBallot

namespace Group

/-- Indices at which shares are dealt: no two are equal, and they are reduced and not zero. -/
structure AreIndices (group : Group) (indices : List Nat) : Prop where
  nodup : indices.Nodup
  range : ∀ index ∈ indices, 1 ≤ index ∧ index < group.q

variable {group : Group} {indices : List Nat}

theorem AreIndices.cast_ne_zero (hindices : group.AreIndices indices) {index : Nat}
    (hindex : index ∈ indices) : (index : ZMod group.q) ≠ 0 := by
  obtain ⟨hpos, hlt⟩ := hindices.range index hindex
  intro hzero
  rw [ZMod.natCast_eq_zero_iff] at hzero
  exact absurd (Nat.le_of_dvd hpos hzero) (not_le.2 hlt)

theorem AreIndices.injOn_cast (hindices : group.AreIndices indices) :
    Set.InjOn (Nat.cast : Nat → ZMod group.q) indices.toFinset :=
  group.injOn_castQ fun index hindex => (hindices.range index hindex).2

theorem polynomial_append (group : Group) (low high : List Nat) :
    group.polynomial (low ++ high) =
      group.polynomial low + X ^ low.length * group.polynomial high := by
  induction low with
  | nil => rw [List.nil_append, List.length_nil, polynomial, zero_add, pow_zero, one_mul]
  | cons first rest ih =>
    rw [List.cons_append, polynomial, polynomial, ih, List.length_cons]
    ring

end Group

namespace Polynomial

/-- The values at some indices. -/
def shares (polynomial : Polynomial) (group : Group) (indices : List Nat) : List Nat :=
  indices.map (polynomial.evaluate group)

theorem shares_mem_vectors (polynomial : Polynomial) (group : Group) (indices : List Nat) :
    polynomial.shares group indices ∈ group.vectors indices.length :=
  ⟨List.length_map _, List.forall_mem_map.2 fun index _ => polynomial.evaluate_lt group index⟩

section Shares

variable {group : Group} {indices : List Nat} (hsafe : group.IsSafe)
  (hindices : group.AreIndices indices)

include hsafe hindices

/-- If all but as many coefficients as there are indices are fixed, the shares determine them. -/
theorem injOn_shares (secret : Nat) (high : List Nat) :
    Set.InjOn (fun low => (⟨secret :: (low ++ high)⟩ : Polynomial).shares group indices)
      (group.vectors indices.length) := by
  have := Fact.mk hsafe.prime_q
  intro low hlow other hother heq
  apply (group.bijOn_polynomial indices.length).injOn hlow hother
  have hvalues : ∀ index ∈ indices, (group.polynomial low).eval (index : ZMod group.q) =
      (group.polynomial other).eval (index : ZMod group.q) := by
    intro index hindex
    have hshare := congrArg (Nat.cast : Nat → ZMod group.q) (List.map_inj_left.1 heq index hindex)
    simp only [cast_evaluate, Group.polynomial, Group.polynomial_append, hlow.1, hother.1, eval_add,
      eval_mul, eval_X, add_right_inj] at hshare
    exact add_right_cancel (mul_left_cancel₀ (hindices.cast_ne_zero hindex) hshare)
  have hcard : indices.toFinset.card = indices.length :=
    List.toFinset_card_of_nodup hindices.nodup
  have hdegree {vector : List Nat} (hvector : vector ∈ group.vectors indices.length) :
      (group.polynomial vector).degree < indices.toFinset.card := by
    rw [hcard]
    exact (group.bijOn_polynomial indices.length).mapsTo hvector
  exact eq_of_degrees_lt_of_eval_index_eq _ hindices.injOn_cast (hdegree hlow) (hdegree hother)
    fun index hindex => hvalues index (List.mem_toFinset.1 hindex)

/-- And there are such coefficients for all shares. -/
theorem bijOn_shares (secret : Nat) (high : List Nat) :
    Set.BijOn (fun low => (⟨secret :: (low ++ high)⟩ : Polynomial).shares group indices)
      (group.vectors indices.length) (group.vectors indices.length) := by
  -- one to one between sets of one size is onto
  refine ((group.finite_vectors indices.length).injOn_iff_bijOn_of_mapsTo ?_).1
    (injOn_shares hsafe hindices secret high)
  intro low _
  exact shares_mem_vectors _ group indices

/-- Of the coefficients that lead to given shares, those that are left over are free. -/
theorem bijOn_drop (secret : Nat) {count : Nat} (hfew : indices.length ≤ count) {values : List Nat}
    (hvalues : values ∈ group.vectors indices.length) :
    Set.BijOn (List.drop indices.length)
      {others ∈ group.vectors count |
        (⟨secret :: others⟩ : Polynomial).shares group indices = values}
      (group.vectors (count - indices.length)) := by
  have hbij := bijOn_shares hsafe hindices secret
  have htake {others : List Nat} (hothers : others ∈ group.vectors count) :
      others.take indices.length ∈ group.vectors indices.length := by
    refine ⟨?_, fun entry hentry => hothers.2 entry (List.mem_of_mem_take hentry)⟩
    rw [List.length_take, hothers.1, Nat.min_eq_left hfew]
  refine ⟨?_, ?_, ?_⟩
  · rintro others ⟨hothers, _⟩
    refine ⟨?_, fun entry hentry => hothers.2 entry (List.mem_of_mem_drop hentry)⟩
    rw [List.length_drop, hothers.1]
  · rintro others ⟨hothers, hshares⟩ more ⟨hmore, hsame⟩ hdrop
    have hlow : others.take indices.length = more.take indices.length := by
      apply (hbij (others.drop indices.length)).injOn (htake hothers) (htake hmore)
      dsimp only
      rw [List.take_append_drop, hshares, hdrop, List.take_append_drop, hsame]
    rw [← List.take_append_drop indices.length others, hlow, hdrop, List.take_append_drop]
  · intro high hhigh
    obtain ⟨low, hlow, hshares⟩ := (hbij high).surjOn hvalues
    refine ⟨low ++ high, ⟨⟨?_, ?_⟩, hshares⟩, List.drop_left' hlow.1⟩
    · rw [List.length_append, hlow.1, hhigh.1, Nat.add_sub_cancel' hfew]
    · exact List.forall_mem_append.2 ⟨hlow.2, hhigh.2⟩

theorem ncard_shares_eq (secret : Nat) {count : Nat} (hfew : indices.length ≤ count)
    {values : List Nat} (hvalues : values ∈ group.vectors indices.length) :
    {others ∈ group.vectors count |
      (⟨secret :: others⟩ : Polynomial).shares group indices = values}.ncard =
        group.q ^ (count - indices.length) := by
  rw [(bijOn_drop hsafe hindices secret hfew hvalues).ncard_eq, Group.ncard_vectors]

end Shares

end Polynomial

namespace Draw

variable {group : Group} {count : Nat} {values : List Nat}

theorem canYield_exponents (hvalues : values ∈ group.vectors count) :
    (exponents group count).CanYield values := by
  obtain ⟨rfl, hreduced⟩ := hvalues
  induction values with
  | nil => exact canYield_pure []
  | cons first rest ih =>
    obtain ⟨hfirst, hrest⟩ := List.forall_mem_cons.1 hreduced
    exact (canYield_exponent hfirst).bind ((ih hrest).bind (canYield_pure _))

end Draw

namespace Polynomial

/-- What is drawn is a polynomial with the secret in front of any vector of reduced coefficients. -/
theorem canYield_sample_iff {group : Group} {degree secret : Nat} {polynomial : Polynomial} :
    (sample group degree secret).CanYield polynomial ↔
      ∃ others ∈ group.vectors degree, polynomial = ⟨secret % group.q :: others⟩ := by
  constructor
  · rintro ⟨taken, hyield⟩
    obtain ⟨others, hcoefficients, hothers⟩ := sample_spec (hyield [])
    exact ⟨others, hothers, congrArg Polynomial.mk hcoefficients⟩
  · rintro ⟨others, ⟨hlength, hreduced⟩, rfl⟩
    have hdrawn : 0 :: others ∈ group.vectors (degree + 1) :=
      ⟨by rw [List.length_cons, hlength], List.forall_mem_cons.2 ⟨group.q_pos, hreduced⟩⟩
    exact (Draw.canYield_exponents hdrawn).bind (Draw.canYield_pure _)

/-- A polynomial for the threshold `t` is drawn with any `t - 1` reduced coefficients behind its
    secret. They are mapped one to one onto the shares at `t - 1` indices; and shares at no more
    indices than that arise from as many coefficients as under any other secret. -/
theorem shares_hide_secret {group : Group} (hsafe : group.IsSafe) (t : Nat) {secret : Nat}
    (hsecret : secret < group.q) :
    (∀ polynomial, (sample group (t - 1) secret).CanYield polynomial ↔
      ∃ others ∈ group.vectors (t - 1), polynomial = ⟨secret :: others⟩) ∧
    ∀ indices, group.AreIndices indices →
      (indices.length = t - 1 →
        Set.BijOn (fun others => (⟨secret :: others⟩ : Polynomial).shares group indices)
          (group.vectors (t - 1)) (group.vectors (t - 1))) ∧
      (indices.length ≤ t - 1 → ∀ values,
        (values ∈ group.vectors indices.length →
          {others ∈ group.vectors (t - 1) |
            (⟨secret :: others⟩ : Polynomial).shares group indices = values}.ncard =
              group.q ^ (t - 1 - indices.length)) ∧
        ∀ other < group.q,
          {others ∈ group.vectors (t - 1) |
            (⟨secret :: others⟩ : Polynomial).shares group indices = values}.ncard =
          {others ∈ group.vectors (t - 1) |
            (⟨other :: others⟩ : Polynomial).shares group indices = values}.ncard) := by
  refine ⟨fun polynomial => ?_, fun indices hindices => ⟨fun hlength => ?_,
    fun hfew values => ⟨ncard_shares_eq hsafe hindices secret hfew, fun other _ => ?_⟩⟩⟩
  · rw [canYield_sample_iff, Nat.mod_eq_of_lt hsecret]
  · have hbij := bijOn_shares hsafe hindices secret []
    simp only [List.append_nil, hlength] at hbij
    exact hbij
  · by_cases hvalues : values ∈ group.vectors indices.length
    · rw [ncard_shares_eq hsafe hindices secret hfew hvalues,
        ncard_shares_eq hsafe hindices other hfew hvalues]
    · -- shares that are not reduced do not arise at all
      have hnone (constant : Nat) : {others ∈ group.vectors (t - 1) |
          (⟨constant :: others⟩ : Polynomial).shares group indices = values} = ∅ := by
        refine Set.eq_empty_of_forall_notMem ?_
        rintro others ⟨_, rfl⟩
        exact hvalues (shares_mem_vectors _ group indices)
      rw [hnone secret, hnone other]

/-- In the group of order 11, two shares of three: every pair of shares has one pair of
    coefficients, and a single share has eleven, for the secrets 5 and 9 alike. -/
theorem shares_hide_secret_small :
    Group.small.IsSafe ∧ 5 < Group.small.q ∧ Group.small.AreIndices [2, 7] ∧
      Group.small.AreIndices [4] ∧
      Set.BijOn (fun others => (⟨5 :: others⟩ : Polynomial).shares Group.small [2, 7])
        (Group.small.vectors 2) (Group.small.vectors 2) ∧
      {others ∈ Group.small.vectors 2 |
        (⟨5 :: others⟩ : Polynomial).shares Group.small [4] = [10]}.ncard = 11 ∧
      {others ∈ Group.small.vectors 2 |
        (⟨5 :: others⟩ : Polynomial).shares Group.small [4] = [10]}.ncard =
      {others ∈ Group.small.vectors 2 |
        (⟨9 :: others⟩ : Polynomial).shares Group.small [4] = [10]}.ncard := by
  have hsecret : 5 < Group.small.q := by decide
  have htwo : Group.small.AreIndices [2, 7] := ⟨by decide, by decide⟩
  have hone : Group.small.AreIndices [4] := ⟨by decide, by decide⟩
  obtain ⟨_, hshares⟩ := shares_hide_secret Group.small_isSafe 3 hsecret
  obtain ⟨hcount, hsame⟩ := (hshares [4] hone).2 (by decide) [10]
  have hvalues : [10] ∈ Group.small.vectors 1 := ⟨rfl, by decide⟩
  exact ⟨Group.small_isSafe, hsecret, htwo, hone, (hshares [2, 7] htwo).1 rfl, hcount hvalues,
    hsame 9 (by decide)⟩

end Polynomial

end SecretBallot

end
