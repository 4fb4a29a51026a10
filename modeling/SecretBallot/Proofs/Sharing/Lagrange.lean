import Mathlib
import SecretBallot.Sharing.Lagrange
import SecretBallot.Proofs.Group.Exponents

section

open Polynomial

namespace SecretBallot

namespace Group

/-- The weight of an index at zero: the product of `j / (j - i)` over the others. -/
def weightAtZero (group : Group) (indices : List Nat) (i : Nat) : ZMod group.q :=
  ((indices.filter (· ≠ i)).map fun j : Nat =>
    (j : ZMod group.q) * ((j : ZMod group.q) - (i : ZMod group.q))⁻¹).prod

variable {group : Group}

/-- Indices that are reduced have coefficients, if they repeat or not. -/
theorem exists_lagranges {indices : List Nat} (hreduced : ∀ index ∈ indices, index < group.q) :
    ∃ coefficients, group.lagranges indices = .ok coefficients := by
  have hstep (i : Nat) (hi : i < group.q) (others : List Nat)
      (hothers : ∀ j ∈ others, j < group.q ∧ j ≠ i) (product : Nat) :
      ∃ coefficient, others.foldlM (fun product j => do
          let inverse ← group.invertQ (group.subQ j i)
          pure (group.mulQ product (group.mulQ j inverse))) product = Except.ok coefficient := by
    induction others generalizing product with
    | nil => exact ⟨product, rfl⟩
    | cons j rest ih =>
      obtain ⟨⟨hj, hne⟩, hrest⟩ := List.forall_mem_cons.1 hothers
      have hdifference : group.subQ j i % group.q ≠ 0 := by
        intro hzero
        refine hne (group.eq_of_castQ_eq hj hi ?_)
        rw [← sub_eq_zero, ← cast_subQ, ← ZMod.natCast_mod, hzero, Nat.cast_zero]
      rw [List.foldlM_cons, invertQ, require_of _ hdifference]
      exact ih hrest _
  have hcoefficients : ∀ i ∈ indices, ∃ coefficient,
      group.lagrange indices i = .ok coefficient := by
    intro i hi
    refine hstep i (hreduced i hi) _ (fun j hj => ?_) 1
    obtain ⟨hmem, hne⟩ := List.mem_filter.1 hj
    exact ⟨hreduced j hmem, of_decide_eq_true hne⟩
  obtain ⟨coefficients, hall⟩ := exists_forall₂ hcoefficients
  exact ⟨coefficients, mapM_of_forall₂ hall⟩

theorem exists_interpolate {points : List (Nat × Nat)}
    (hreduced : ∀ point ∈ points, point.1 < group.q) :
    ∃ value, group.interpolate points = .ok value := by
  obtain ⟨coefficients, hcoefficients⟩ :=
    exists_lagranges (List.forall_mem_map.2 hreduced)
  rw [interpolate, hcoefficients]
  exact ⟨_, rfl⟩

/-- Members are interpolated to a member. -/
theorem exists_interpolateInExponent {points : List (Nat × Nat)}
    (hreduced : ∀ point ∈ points, point.1 < group.q)
    (hmembers : ∀ point ∈ points, group.isMember point.2 = true) :
    ∃ value, group.interpolateInExponent points = .ok value ∧ group.isMember value = true := by
  obtain ⟨coefficients, hcoefficients⟩ := exists_lagranges (List.forall_mem_map.2 hreduced)
  have hmember : ∀ entry ∈ points.zip coefficients, group.isMember entry.1.2 = true :=
    fun entry hentry => hmembers entry.1 (List.of_mem_zip hentry).1
  have hpowers : (points.zip coefficients).mapM (fun entry => group.pow entry.1.2 entry.2) =
      .ok ((points.zip coefficients).map fun entry => powMod entry.1.2 entry.2 group.p) :=
    mapM_eq_ok fun entry hentry =>
      group.pow_eq_ok (group.lt_p_of_isMember (hmember entry hentry)) entry.2
  refine ⟨group.product ((points.zip coefficients).map fun entry =>
    powMod entry.1.2 entry.2 group.p), ?_, ?_⟩
  · rw [interpolateInExponent, hcoefficients, ok_bind, hpowers]
    apply ok_bind
  · refine group.isMember_product fun power hpower => ?_
    obtain ⟨entry, hentry, rfl⟩ := List.mem_map.1 hpower
    exact group.isMember_powMod (hmember entry hentry) entry.2

/-- The weights are the values at zero of the polynomials that are one at one index and zero at the
    others. -/
theorem eval_basis_eq [Fact group.q.Prime] {indices : List Nat} (hnodup : indices.Nodup) (i : Nat) :
    (Lagrange.basis indices.toFinset (Nat.cast : Nat → ZMod group.q) i).eval 0 =
      group.weightAtZero indices i := by
  have herase : indices.toFinset.erase i = (indices.filter (· ≠ i)).toFinset := by
    rw [List.toFinset_filter]
    ext j
    simp [and_comm]
  rw [weightAtZero, Lagrange.basis, eval_prod, herase, List.prod_toFinset _ (hnodup.filter _)]
  congr 1
  refine List.map_congr_left fun j _ => ?_
  rw [Lagrange.basisDivisor, eval_mul, eval_C, eval_sub, eval_X, eval_C, zero_sub,
    ← neg_sub (j : ZMod group.q) i, inv_neg]
  ring

variable (hsafe : group.IsSafe)

include hsafe

theorem invertQ_eq {a : Nat} (ha : (a : ZMod group.q) ≠ 0) :
    ∃ inverse, group.invertQ a = .ok inverse ∧
      (inverse : ZMod group.q) = (a : ZMod group.q)⁻¹ := by
  have := Fact.mk hsafe.prime_q
  have hne : a % group.q ≠ 0 := fun hzero => by
    rw [← ZMod.natCast_mod, hzero, Nat.cast_zero] at ha
    exact ha rfl
  refine ⟨powMod (a % group.q) (group.q - 2) group.q, ?_, ?_⟩
  · rw [invertQ, require_of _ hne]
    rfl
  · have hexp : group.q - 2 + 1 = group.q - 1 := by
      have := group.one_lt_q
      omega
    rw [powMod_eq, ZMod.natCast_mod, Nat.cast_pow, ZMod.natCast_mod]
    refine eq_inv_of_mul_eq_one_left ?_
    rw [← pow_succ, hexp, ZMod.pow_card_sub_one_eq_one ha]

/-- The coefficient of an index is its weight, reduced. -/
theorem lagrange_eq {indices : List Nat} {i : Nat}
    (hdistinct : ∀ j ∈ indices, j ≠ i → (j : ZMod group.q) ≠ i) :
    ∃ weight < group.q, group.lagrange indices i = .ok weight ∧
      (weight : ZMod group.q) = group.weightAtZero indices i := by
  have hothers : ∀ j ∈ indices.filter (· ≠ i), (j : ZMod group.q) ≠ i := by
    intro j hj
    obtain ⟨hmem, hne⟩ := List.mem_filter.1 hj
    exact hdistinct j hmem (of_decide_eq_true hne)
  have hfold (others : List Nat) (hne : ∀ j ∈ others, (j : ZMod group.q) ≠ i) (product : Nat)
      (hproduct : product < group.q) :
      ∃ weight < group.q, others.foldlM (fun product j => do
          let inverse ← group.invertQ (group.subQ j i)
          pure (group.mulQ product (group.mulQ j inverse))) product = Except.ok weight ∧
        (weight : ZMod group.q) = product *
          (others.map fun j : Nat => (j : ZMod group.q) * ((j : ZMod group.q) - i)⁻¹).prod := by
    induction others generalizing product with
    | nil => exact ⟨product, hproduct, rfl, by rw [List.map_nil, List.prod_nil, mul_one]⟩
    | cons j rest ih =>
      obtain ⟨hhead, hrest⟩ := List.forall_mem_cons.1 hne
      have hsub : ((group.subQ j i : Nat) : ZMod group.q) ≠ 0 := by
        rw [cast_subQ]
        exact sub_ne_zero.2 hhead
      obtain ⟨inverse, hinverse, hcast⟩ := invertQ_eq hsafe hsub
      obtain ⟨weight, hlt, hweight, hvalue⟩ :=
        ih hrest (group.mulQ product (group.mulQ j inverse)) (Nat.mod_lt _ group.q_pos)
      refine ⟨weight, hlt, ?_, ?_⟩
      · rw [List.foldlM_cons, hinverse]
        exact hweight
      · rw [hvalue, cast_mulQ, cast_mulQ, hcast, cast_subQ, List.map_cons, List.prod_cons]
        ring
  obtain ⟨weight, hlt, hweight, hvalue⟩ := hfold _ hothers 1 group.one_lt_q
  exact ⟨weight, hlt, hweight, by rw [hvalue, Nat.cast_one, one_mul, weightAtZero]⟩

/-- Reduced indices have reduced coefficients, their weights. -/
theorem exists_weights {indices : List Nat} (hreduced : ∀ index ∈ indices, index < group.q) :
    ∃ weight : Nat → Nat, group.lagranges indices = .ok (indices.map weight) ∧
      ∀ index ∈ indices, weight index < group.q ∧
        (weight index : ZMod group.q) = group.weightAtZero indices index := by
  have hweights : ∀ i, ∃ weight, i ∈ indices → weight < group.q ∧
      group.lagrange indices i = .ok weight ∧
        (weight : ZMod group.q) = group.weightAtZero indices i := by
    intro i
    by_cases hi : i ∈ indices
    · obtain ⟨weight, hweight⟩ := lagrange_eq hsafe fun j hj hne hcast =>
        hne (group.eq_of_castQ_eq (hreduced j hj) (hreduced i hi) hcast)
      exact ⟨weight, fun _ => hweight⟩
    · exact ⟨0, fun h => absurd h hi⟩
  choose weight hweight using hweights
  exact ⟨weight, mapM_eq_ok fun i hi => (hweight i hi).2.1,
    fun i hi => ⟨(hweight i hi).1, (hweight i hi).2.2⟩⟩

/-- The value at zero of a polynomial is the sum of its values at the indices, each times its
    weight. -/
theorem sum_weightAtZero {indices : List Nat} (hnodup : indices.Nodup)
    (hreduced : ∀ index ∈ indices, index < group.q) {f : (ZMod group.q)[X]}
    (hdegree : f.degree < indices.length) :
    (indices.map fun i : Nat => group.weightAtZero indices i * f.eval (i : ZMod group.q)).sum =
      f.eval 0 := by
  have := Fact.mk hsafe.prime_q
  have hcard : f.degree < indices.toFinset.card := by
    rwa [List.toFinset_card_of_nodup hnodup]
  have hzero := congrArg (eval 0) (Lagrange.eq_interpolate (group.injOn_castQ hreduced) hcard)
  rw [Lagrange.interpolate_apply, eval_finsetSum, List.sum_toFinset _ hnodup] at hzero
  rw [hzero]
  congr 1
  refine List.map_congr_left fun i _ => ?_
  rw [eval_mul, eval_C, eval_basis_eq hnodup]
  ring

/-- Interpolation gives the value at zero of a polynomial through the points. -/
theorem interpolate_eq {points : List (Nat × Nat)} {f : (ZMod group.q)[X]}
    (hnodup : (points.map (·.1)).Nodup) (hreduced : ∀ point ∈ points, point.1 < group.q)
    (hdegree : f.degree < points.length)
    (hvalues : ∀ point ∈ points, (point.2 : ZMod group.q) = f.eval (point.1 : ZMod group.q)) :
    ∃ x < group.q, group.interpolate points = .ok x ∧ (x : ZMod group.q) = f.eval 0 := by
  have hindices : ∀ index ∈ points.map (·.1), index < group.q := List.forall_mem_map.2 hreduced
  obtain ⟨weight, hlagranges, hweight⟩ := exists_weights hsafe hindices
  have hsum : group.interpolate points =
      .ok (group.sumQ (points.map fun point => group.mulQ (weight point.1) point.2)) := by
    have hzip : List.zipWith group.mulQ ((points.map (·.1)).map weight) (points.map (·.2)) =
        points.map fun point => group.mulQ (weight point.1) point.2 := by
      rw [List.map_map, List.zipWith_map, List.zipWith_self]
      rfl
    rw [interpolate, hlagranges, ← hzip]
    rfl
  refine ⟨_, ?_, hsum, ?_⟩
  · rw [sumQ_eq]
    exact Nat.mod_lt _ group.q_pos
  · rw [← sum_weightAtZero hsafe hnodup hindices (by rwa [List.length_map]), cast_sumQ,
      List.map_map, List.map_map]
    congr 1
    refine List.map_congr_left fun point hpoint => ?_
    simp only [Function.comp_apply]
    rw [cast_mulQ, (hweight _ (List.mem_map_of_mem hpoint)).2, hvalues point hpoint]

end Group

end SecretBallot

end
