import Mathlib
import SecretBallot.Proofs.Sharing.Coefficients

namespace SecretBallot

namespace Commitment

/-- The elements of a commitment are the powers of the generator to these reduced exponents. -/
structure IsMadeOf (commitment : Commitment) (group : Group) (exps : List Nat) : Prop where
  reduced : ∀ exp ∈ exps, exp < group.q
  powers : exps.map group.powG = commitment.elements

variable {group : Group} {commitment : Commitment}

theorem verifyShare_of_not_isMember {element : Nat} (hmem : element ∈ commitment.elements)
    (houtside : group.isMember element = false) (x share : Nat) :
    commitment.verifyShare group x share = .ok false := by
  have hnot : ¬ commitment.elements.all group.isMember = true := fun hall =>
    absurd (List.all_eq_true.1 hall element hmem) (ne_true_of_eq_false houtside)
  rw [verifyShare, if_neg hnot]
  rfl

section Safe

variable (hsafe : group.IsSafe)

include hsafe

/-- Members of the subgroup have one vector of reduced exponents. -/
theorem existsUnique_isMadeOf
    (hmembers : ∀ element ∈ commitment.elements, group.isMember element = true) :
    ∃! exps, commitment.IsMadeOf group exps := by
  obtain ⟨exps, hexps⟩ := Group.exists_map_powG_eq hsafe hmembers
  have hreduced (exp : Nat) : group.powG (exp % group.q) = group.powG exp :=
    (Group.powG_eq_powG_iff hsafe).2 (ZMod.natCast_mod exp group.q)
  have hmade : commitment.IsMadeOf group (exps.map (· % group.q)) := by
    refine ⟨List.forall_mem_map.2 fun exp _ => Nat.mod_lt exp group.q_pos, ?_⟩
    rw [← hexps, List.map_map]
    exact List.map_congr_left fun exp _ => hreduced exp
  refine ⟨_, hmade, fun others hothers => ?_⟩
  have hpowers := hothers.powers.trans hmade.powers.symm
  have hlength : others.length = (exps.map (· % group.q)).length := by
    have hmapped := congrArg List.length hpowers
    rwa [List.length_map, List.length_map] at hmapped
  -- equal powers are equal polynomials, and these have one vector of coefficients
  exact (group.bijOn_polynomial _).injOn ⟨hlength, hothers.reduced⟩ ⟨rfl, hmade.reduced⟩
    (Group.polynomial_congr hsafe hpowers)

/-- Against powers of the generator, exactly the values of the exponents' polynomial verify. -/
theorem verifyShare_powers (exps : List Nat) (x share : Nat) :
    (⟨exps.map group.powG⟩ : Commitment).verifyShare group x share =
      .ok (decide (share ≡ powerSum exps x [MOD group.q])) := by
  rw [verifyShare_map_powG hsafe]
  congr 2
  rw [← Group.cast_powerSum, ZMod.natCast_eq_natCast_iff]

end Safe

end Commitment

/-- If an element of a commitment is outside the subgroup, no share verifies. If none is, one vector
    of reduced coefficients makes the commitment, and a share verifies if and only if it is
    congruent to the sum of the coefficients times powers of the index. In particular a
    polynomial's own commitment verifies what is congruent to its value, which is that sum
    reduced. -/
theorem Commitment.verifyShare_exact {group : Group} (hsafe : group.IsSafe) :
    (∀ commitment : Commitment,
      ((∃ element ∈ commitment.elements, group.isMember element = false) →
        ∀ x share, commitment.verifyShare group x share = .ok false) ∧
      ((∀ element ∈ commitment.elements, group.isMember element = true) →
        (∃! exps, commitment.IsMadeOf group exps) ∧
        ∀ exps, commitment.IsMadeOf group exps → ∀ x share,
          commitment.verifyShare group x share =
            .ok (decide (share ≡ powerSum exps x [MOD group.q])))) ∧
    ∀ (polynomial : Polynomial) (x : Nat),
      polynomial.evaluate group x = powerSum polynomial.coefficients x % group.q ∧
      ∀ share, (polynomial.commit group).verifyShare group x share =
        .ok (decide (share ≡ polynomial.evaluate group x [MOD group.q])) := by
  refine ⟨fun commitment => ⟨?_, fun hmembers => ⟨existsUnique_isMadeOf hsafe hmembers, ?_⟩⟩,
    fun polynomial x => ⟨polynomial.evaluate_eq group x, fun share => ?_⟩⟩
  · rintro ⟨element, hmem, houtside⟩
    exact verifyShare_of_not_isMember hmem houtside
  · intro exps hmade x share
    have hcommitment : commitment = ⟨exps.map group.powG⟩ := by
      rw [hmade.powers]
    rw [hcommitment, verifyShare_powers hsafe]
  · rw [Polynomial.commit, verifyShare_powers hsafe, polynomial.evaluate_eq]
    congr 2
    rw [Nat.ModEq, Nat.ModEq, Nat.mod_mod]

/-- In the group of order 11, the index 13 stands for 2 and the share 12 for 1. -/
theorem Commitment.verifyShare_exact_small :
    Group.small.IsSafe ∧ Group.small.isMember 5 = false ∧
      (⟨[18, 5]⟩ : Commitment).verifyShare Group.small 1 8 = .ok false ∧
      (⟨[18, 1, 12]⟩ : Commitment).IsMadeOf Group.small [3, 0, 5] ∧
      (⟨[18, 1, 12]⟩ : Commitment).verifyShare Group.small 13 12 = .ok true ∧
      (⟨[18, 1, 12]⟩ : Commitment).verifyShare Group.small 13 2 = .ok false ∧
      (⟨[14, 0, 16]⟩ : Polynomial).evaluate Group.small 13 = 1 := by
  have houtside : Group.small.isMember 5 = false := by decide
  have hmembers : ∀ element ∈ [18, 1, 12], Group.small.isMember element = true := by decide
  have hmade : (⟨[18, 1, 12]⟩ : Commitment).IsMadeOf Group.small [3, 0, 5] :=
    ⟨by decide, by decide⟩
  obtain ⟨hcommitments, hpolynomials⟩ := verifyShare_exact Group.small_isSafe
  obtain ⟨_, hvalues⟩ := (hcommitments ⟨[18, 1, 12]⟩).2 hmembers
  have hvalue : powerSum [3, 0, 5] 13 = 848 := by decide
  refine ⟨Group.small_isSafe, houtside,
    (hcommitments ⟨[18, 5]⟩).1 ⟨5, by decide, houtside⟩ 1 8, hmade, ?_, ?_, ?_⟩
  · rw [hvalues _ hmade, hvalue]
    rfl
  · rw [hvalues _ hmade, hvalue]
    rfl
  · rw [(hpolynomials ⟨[14, 0, 16]⟩ 13).1]
    decide

end SecretBallot
