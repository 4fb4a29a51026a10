import Mathlib
import SecretBallot.Proofs.Proof.Membership

namespace SecretBallot

namespace MembershipProof

/-- What the prover of a value can draw: an exponent for the branch of the value, a challenge and a
    response for every other branch, all reduced. -/
def Coins (group : Group) (domain : List UInt64) (m : UInt64) : Set (Nat × List (Nat × Nat)) :=
  {coins | coins.1 < group.q ∧ Drawn group (domain.findIdx (· == m)) domain.length coins.2}

/-- The draws of the prover of a value, in their order. -/
def drawCoins (group : Group) (domain : List UInt64) (m : UInt64) :
    Draw (Nat × List (Nat × Nat)) := do
  let w ← Draw.exponent group
  let branches ← drawBranches group (domain.findIdx (· == m)) domain.length
  pure (w, branches)

/-- The proof that is made of the draws if the hash gives the challenge. -/
def ofCoins (group : Group) (domain : List UInt64) (m : UInt64) (r challenge : Nat)
    (coins : Nat × List (Nat × Nat)) : MembershipProof :=
  complete group (domain.findIdx (· == m)) coins.1 r challenge coins.2

/-- The draws that a proof is made of. -/
def coinsOf (group : Group) (domain : List UInt64) (m : UInt64) (r : Nat)
    (proof : MembershipProof) : Nat × List (Nat × Nat) :=
  let real := domain.findIdx (· == m)
  (group.subQ (proof.responses.getD real 0) (group.mulQ (proof.challenges.getD real 0) r),
    (proof.challenges.zip proof.responses).set real (0, 0))

/-- The pairs of reduced vectors, as long as the domain, in which the first sums to a challenge. -/
def Splits (group : Group) (count challenge : Nat) : Set MembershipProof :=
  {proof | proof.challenges.length = count ∧ proof.responses.length = count ∧
    (∀ n ∈ proof.challenges ++ proof.responses, n < group.q) ∧
    proof.challenges.sum ≡ challenge [MOD group.q]}

section Bijection

variable {key : PublicKey} {domain : List UInt64} {m : UInt64} {r challenge : Nat}

theorem findIdx_lt_length (hm : m ∈ domain) : domain.findIdx (· == m) < domain.length :=
  List.findIdx_lt_length_of_exists ⟨m, hm, beq_self_eq_true m⟩

theorem getElem_findIdx (hlt : domain.findIdx (· == m) < domain.length) :
    domain[domain.findIdx (· == m)] = m :=
  eq_of_beq (List.findIdx_getElem (p := (· == m)))

/-- The commitments that the prover of a value hashes are those that a verifier recomputes. -/
theorem commitments_findIdx (hm : m ∈ domain) {ciphertext : Ciphertext}
    (hencrypt : Ciphertext.encrypt key m.toNat r = .ok ciphertext) {w : Nat}
    {branches : List (Nat × Nat)}
    (hdrawn : Drawn key.group (domain.findIdx (· == m)) domain.length branches) (challenge : Nat) :
    ∃ commitments, proverCommitments key ciphertext domain (domain.findIdx (· == m)) w branches =
        .ok commitments ∧
      (ofCoins key.group domain m r challenge (w, branches)).verifierCommitments key ciphertext
        domain = .ok commitments := by
  have hlt := findIdx_lt_length hm
  rw [← getElem_findIdx hlt] at hencrypt
  exact commitments_complete hdrawn hlt hencrypt challenge

theorem ofCoins_mem (hm : m ∈ domain) (hchallenge : challenge < key.group.q)
    {coins : Nat × List (Nat × Nat)} (hcoins : coins ∈ Coins key.group domain m) :
    ofCoins key.group domain m r challenge coins ∈
      Splits key.group domain.length challenge := by
  have hreal := findIdx_lt_length hm
  obtain ⟨_, hdrawn⟩ := hcoins
  refine ⟨(length_complete hdrawn).1, (length_complete hdrawn).2, reduced_complete hdrawn, ?_⟩
  have hsum := sumQ_complete (w := coins.1) (r := r) hdrawn hreal hchallenge
  rw [Group.sumQ_eq] at hsum
  rw [Nat.ModEq, Nat.mod_eq_of_lt hchallenge]
  exact hsum

theorem coinsOf_mem {group : Group} {proof : MembershipProof}
    (hproof : proof ∈ Splits group domain.length challenge) :
    coinsOf group domain m r proof ∈ Coins group domain m := by
  obtain ⟨hchallenges, hresponses, hreduced, _⟩ := hproof
  refine ⟨Nat.mod_lt _ group.q_pos, ?_, fun h => List.getElem_set_self _, fun branch hmem => ?_⟩
  · rw [coinsOf, List.length_set, List.length_zip, hchallenges, hresponses, min_self]
  · rcases List.mem_or_eq_of_mem_set hmem with hzip | rfl
    · obtain ⟨hc, hs⟩ := List.of_mem_zip hzip
      exact ⟨hreduced _ (List.mem_append_left _ hc), hreduced _ (List.mem_append_right _ hs)⟩
    · exact ⟨group.q_pos, group.q_pos⟩

/-- The draws can be read off the proof. -/
theorem coinsOf_ofCoins {group : Group} (hm : m ∈ domain) {coins : Nat × List (Nat × Nat)}
    (hcoins : coins ∈ Coins group domain m) :
    coinsOf group domain m r (ofCoins group domain m r challenge coins) = coins := by
  obtain ⟨w, branches⟩ := coins
  obtain ⟨hw, hdrawn⟩ := hcoins
  have hlt : domain.findIdx (· == m) < branches.length := by
    rw [hdrawn.length_eq]
    exact findIdx_lt_length hm
  set real := domain.findIdx (· == m) with hreal
  set own := group.subQ challenge (group.sumQ (branches.map (·.1)))
  have hchallenge : (ofCoins group domain m r challenge (w, branches)).challenges.getD real 0 =
      own := by
    change ((branches.map (·.1)).set real own).getD real 0 = own
    simp [List.getD, hlt]
  have hresponse : (ofCoins group domain m r challenge (w, branches)).responses.getD real 0 =
      group.addQ w (group.mulQ own r) := by
    change ((branches.map (·.2)).set real (group.addQ w (group.mulQ own r))).getD real 0 = _
    simp [List.getD, hlt]
  refine Prod.ext ?_ (List.ext_getElem ?_ fun i hi hbranches => ?_)
  · refine group.eq_of_castQ_eq (Nat.mod_lt _ group.q_pos) hw ?_
    rw [coinsOf]
    dsimp only
    rw [← hreal, hchallenge, hresponse, Group.cast_subQ, Group.cast_addQ, add_sub_cancel_right]
  · simp [coinsOf, ofCoins, complete]
  · simp only [coinsOf, ofCoins, complete, ← hreal, List.getElem_set, List.getElem_zip,
      List.getElem_map]
    by_cases hi' : real = i
    · subst hi'
      rw [if_pos rfl, hdrawn.real_eq]
    · simp only [if_neg hi']

/-- A proof is made of the draws that are read off it. -/
theorem ofCoins_coinsOf {group : Group} (hm : m ∈ domain) {proof : MembershipProof}
    (hproof : proof ∈ Splits group domain.length challenge) :
    ofCoins group domain m r challenge (coinsOf group domain m r proof) = proof := by
  obtain ⟨challenges, responses⟩ := proof
  obtain ⟨hchallenges, hresponses, hreduced, hsum⟩ := hproof
  dsimp only at hchallenges hresponses hreduced hsum
  have hlt := findIdx_lt_length hm
  have hc : domain.findIdx (· == m) < challenges.length := hchallenges.symm ▸ hlt
  have hs : domain.findIdx (· == m) < responses.length := hresponses.symm ▸ hlt
  set real := domain.findIdx (· == m) with hreal
  have hfirst : ((challenges.zip responses).set real (0, 0)).map (·.1) = challenges.set real 0 := by
    rw [List.map_set, List.map_fst_zip (hchallenges.trans hresponses.symm).le]
  have hsecond : ((challenges.zip responses).set real (0, 0)).map (·.2) = responses.set real 0 := by
    rw [List.map_set, List.map_snd_zip (hresponses.trans hchallenges.symm).le]
  have hown : group.subQ challenge (group.sumQ (challenges.set real 0)) = challenges[real] := by
    refine group.eq_of_castQ_eq (Nat.mod_lt _ group.q_pos)
      (hreduced _ (List.mem_append_left _ (List.getElem_mem hc))) ?_
    have htotal := (ZMod.natCast_eq_natCast_iff _ _ _).2 hsum
    rw [Nat.cast_list_sum] at htotal
    simp only [Group.cast_subQ, Group.cast_sumQ, List.map_set, List.sum_set', List.length_map, hc,
      dite_true, List.getElem_map, Nat.cast_zero, htotal]
    ring
  have hresponse : group.addQ (group.subQ responses[real] (group.mulQ challenges[real] r))
      (group.mulQ challenges[real] r) = responses[real] := by
    refine group.eq_of_castQ_eq (Nat.mod_lt _ group.q_pos)
      (hreduced _ (List.mem_append_right _ (List.getElem_mem hs))) ?_
    simp
  rw [ofCoins, coinsOf, complete]
  simp only [← hreal, hfirst, hsecond, hown, List.getD_eq_getElem _ _ hc,
    List.getD_eq_getElem _ _ hs, hresponse, List.set_set, List.set_getElem_self]

theorem bijOn_ofCoins (hm : m ∈ domain) (hchallenge : challenge < key.group.q) :
    Set.BijOn (ofCoins key.group domain m r challenge) (Coins key.group domain m)
      (Splits key.group domain.length challenge) :=
  Set.InvOn.bijOn ⟨fun _ hcoins => coinsOf_ofCoins hm hcoins,
    fun _ hproof => ofCoins_coinsOf hm hproof⟩
    (fun _ hcoins => ofCoins_mem hm hchallenge hcoins) (fun _ hproof => coinsOf_mem hproof)

end Bijection

section Run

variable {group : Group} {domain : List UInt64} {m : UInt64}

theorem canYield_drawBranches {real count : Nat} {branches : List (Nat × Nat)}
    (hdrawn : Drawn group real count branches) :
    (drawBranches group real count).CanYield branches := by
  rw [drawBranches]
  refine Draw.canYield_mapM (List.forall₂_iff_get.2 ⟨?_, fun i hrange hbranches => ?_⟩)
  · rw [List.length_range, hdrawn.length_eq]
  rw [List.get_eq_getElem, List.get_eq_getElem, List.getElem_range]
  by_cases hi : i = real
  · subst hi
    rw [if_pos rfl, hdrawn.real_eq]
    exact Draw.canYield_pure _
  · obtain ⟨hc, hs⟩ := hdrawn.reduced _ (List.getElem_mem hbranches)
    rw [if_neg hi]
    exact (Draw.canYield_exponent hc).bind
      ((Draw.canYield_exponent hs).bind (Draw.canYield_pure _))

theorem completes_drawCoins (group : Group) (domain : List UInt64) (m : UInt64) (supply : Bytes) :
    (drawCoins group domain m).Completes supply fun coins _ => coins ∈ Coins group domain m := by
  rw [drawCoins]
  refine (Draw.completes_exponent group supply).bind fun w between hw => ?_
  refine (completes_drawBranches group _ _ between).bind fun branches reached hbranches => ?_
  exact Action.completes_pure ⟨hw, hbranches⟩

/-- The prover draws nothing else, and there are random bytes for each of the possible draws. -/
theorem mem_coins_iff {coins : Nat × List (Nat × Nat)} : coins ∈ Coins group domain m ↔
    ∃ supply rest, drawCoins group domain m supply = (.ok coins, rest) := by
  constructor
  · rintro ⟨hw, hdrawn⟩
    have hyield : (drawCoins group domain m).CanYield coins := by
      rw [drawCoins]
      exact (Draw.canYield_exponent hw).bind
        ((canYield_drawBranches hdrawn).bind (Draw.canYield_pure _))
    obtain ⟨taken, htaken⟩ := hyield
    exact ⟨taken ++ [], [], htaken []⟩
  · rintro ⟨supply, rest, hrun⟩
    exact (completes_drawCoins group domain m supply).of_ok hrun

/-- The prover makes its proof of its draws and of the hash of their commitments alone. -/
theorem proveInDomain_eq_ok_iff {key : PublicKey} {hash : Hash} (hm : m ∈ domain) {r : Nat}
    {ciphertext : Ciphertext} (hencrypt : Ciphertext.encrypt key m.toNat r = .ok ciphertext)
    {context : Bytes} {prover reached : Prover} {proof : MembershipProof} :
    proveInDomain hash key ciphertext domain m r context prover = (.ok proof, reached) ↔
      ∃ coins rest commitments,
        drawCoins key.group domain m prover.supply = (.ok coins, rest) ∧
        proverCommitments key ciphertext domain (domain.findIdx (· == m)) coins.1 coins.2 =
          .ok commitments ∧
        proof = ofCoins key.group domain m r (Transcript.value hash (prover.transcript.absorbed ++
          transcript context key ciphertext domain commitments) key.group.q) coins ∧
        reached = ⟨rest, .fresh⟩ := by
  have hfind : domain.findIdx? (· == m) = some (domain.findIdx (· == m)) :=
    List.findIdx?_eq_some_iff_findIdx_eq.2 ⟨findIdx_lt_length hm, rfl⟩
  have hhashed (bytes supply : Bytes) :
      Prover.onTranscript (Transcript.challengeFor hash key.group bytes)
        ⟨supply, prover.transcript⟩ =
      (.ok (Transcript.value hash (prover.transcript.absorbed ++ bytes) key.group.q),
        ⟨supply, .fresh⟩) :=
    Prover.challengeFor_apply hash key.group bytes ⟨supply, prover.transcript⟩
  rw [proveInDomain, hfind]
  dsimp only
  rw [Action.lift_bind_apply, hencrypt]
  dsimp only
  rw [Action.ensure_bind_apply, if_pos rfl]
  constructor
  · intro hrun
    obtain ⟨w, _, hw, hrun⟩ := Action.bind_eq_ok_iff.1 hrun
    obtain ⟨between, hexponent, rfl⟩ := Action.zoom_eq_ok_iff.1 hw
    obtain ⟨branches, _, hbranches, hrun⟩ := Action.bind_eq_ok_iff.1 hrun
    obtain ⟨rest, hdrawn, rfl⟩ := Action.zoom_eq_ok_iff.1 hbranches
    obtain ⟨_, _, hindex, hrun⟩ := Action.bind_eq_ok_iff.1 hrun
    obtain ⟨_, rfl⟩ := Action.lift_apply_eq_ok_iff.1 hindex
    obtain ⟨commitments, _, hlift, hrun⟩ := Action.bind_eq_ok_iff.1 hrun
    obtain ⟨hcommitments, rfl⟩ := Action.lift_apply_eq_ok_iff.1 hlift
    rw [Action.bind_of_ok (hhashed _ _), Action.pure_eq_ok_iff] at hrun
    obtain ⟨rfl, rfl⟩ := hrun
    refine ⟨(w, branches), rest, commitments, ?_, hcommitments, rfl, rfl⟩
    rw [drawCoins, Action.bind_of_ok hexponent, Action.bind_of_ok hdrawn, Action.pure_apply]
  · rintro ⟨coins, _, commitments, hcoins, hcommitments, rfl, rfl⟩
    obtain ⟨w, between, hexponent, hdraw⟩ := Action.bind_eq_ok_iff.1 hcoins
    obtain ⟨branches, rest, hbranches, hpure⟩ := Action.bind_eq_ok_iff.1 hdraw
    rw [Action.pure_eq_ok_iff] at hpure
    obtain ⟨rfl, rfl⟩ := hpure
    have hfirst : Prover.draw (Draw.exponent key.group) prover =
        (.ok w, ⟨between, prover.transcript⟩) :=
      Action.zoom_eq_ok_iff.2 ⟨between, hexponent, rfl⟩
    have hsecond : Prover.draw (drawBranches key.group (domain.findIdx (· == m)) domain.length)
        ⟨between, prover.transcript⟩ = (.ok branches, ⟨rest, prover.transcript⟩) :=
      Action.zoom_eq_ok_iff.2 ⟨rest, hbranches, rfl⟩
    have hreal : domain.findIdx (· == m) < branches.length := by
      rw [length_of_drawBranches hbranches]
      exact findIdx_lt_length hm
    rw [Action.bind_of_ok hfirst, Action.bind_of_ok hsecond, Action.lift_bind_apply,
      require_of _ hreal]
    dsimp only
    rw [Action.lift_bind_apply, hcommitments]
    dsimp only
    rw [Action.bind_of_ok (hhashed _ _), Action.pure_apply]
    rfl

end Run

section Hiding

variable {key : PublicKey} {domain : List UInt64} {m : UInt64} {r challenge : Nat}

/-- Every proof for the challenge is made of one choice of draws, any other proof of none. -/
theorem ncard_fibre (hm : m ∈ domain) (hchallenge : challenge < key.group.q)
    (proof : MembershipProof) [Decidable (proof ∈ Splits key.group domain.length challenge)] :
    {coins ∈ Coins key.group domain m |
        ofCoins key.group domain m r challenge coins = proof}.ncard =
      if proof ∈ Splits key.group domain.length challenge then 1 else 0 := by
  have hbij := bijOn_ofCoins (r := r) hm hchallenge
  by_cases hproof : proof ∈ Splits key.group domain.length challenge
  · rw [if_pos hproof, Set.ncard_eq_one]
    obtain ⟨coins, hcoins, rfl⟩ := hbij.surjOn hproof
    refine ⟨coins, Set.eq_singleton_iff_unique_mem.2 ⟨⟨hcoins, rfl⟩, ?_⟩⟩
    rintro others ⟨hothers, heq⟩
    exact hbij.injOn hothers hcoins heq
  · rw [if_neg hproof]
    refine (congrArg Set.ncard (Set.eq_empty_of_forall_notMem ?_)).trans (Set.ncard_empty _)
    rintro coins ⟨hcoins, rfl⟩
    exact hproof (hbij.mapsTo hcoins)

/-- Membership proofs hide the value. What the prover returns depends on its draws and on one
    challenge, the hash of commitments that the verifier recomputes; for a given challenge the draws
    are mapped one to one onto the same proofs, whatever the value and the randomness. -/
theorem proofs_hide_value (hm : m ∈ domain) {ciphertext : Ciphertext}
    (hencrypt : Ciphertext.encrypt key m.toNat r = .ok ciphertext)
    (hchallenge : challenge < key.group.q) :
    (∀ hash context prover proof reached,
      proveInDomain hash key ciphertext domain m r context prover = (.ok proof, reached) ↔
        ∃ coins rest commitments,
          drawCoins key.group domain m prover.supply = (.ok coins, rest) ∧
          proverCommitments key ciphertext domain (domain.findIdx (· == m)) coins.1 coins.2 =
            .ok commitments ∧
          proof = ofCoins key.group domain m r (Transcript.value hash (prover.transcript.absorbed ++
            transcript context key ciphertext domain commitments) key.group.q) coins ∧
          reached = ⟨rest, .fresh⟩) ∧
    (∀ coins, coins ∈ Coins key.group domain m ↔
      ∃ supply rest, drawCoins key.group domain m supply = (.ok coins, rest)) ∧
    Set.BijOn (ofCoins key.group domain m r challenge) (Coins key.group domain m)
      (Splits key.group domain.length challenge) ∧
    (∀ coins ∈ Coins key.group domain m, ∃ commitments,
      proverCommitments key ciphertext domain (domain.findIdx (· == m)) coins.1 coins.2 =
        .ok commitments ∧
      (ofCoins key.group domain m r challenge coins).verifierCommitments key ciphertext domain =
        .ok commitments) ∧
    ∀ m' ∈ domain, ∀ r' proof,
      {coins ∈ Coins key.group domain m |
        ofCoins key.group domain m r challenge coins = proof}.ncard =
      {coins ∈ Coins key.group domain m' |
        ofCoins key.group domain m' r' challenge coins = proof}.ncard := by
  classical
  refine ⟨fun hash context prover proof reached => proveInDomain_eq_ok_iff hm hencrypt,
    fun coins => mem_coins_iff, bijOn_ofCoins hm hchallenge, ?_, fun m' hm' r' proof => ?_⟩
  · rintro coins ⟨_, hdrawn⟩
    exact commitments_findIdx hm hencrypt hdrawn challenge
  · rw [ncard_fibre hm hchallenge, ncard_fibre hm' hchallenge]

/-- In the group of order 11, a vote for and a vote against are proved alike. -/
theorem proofs_hide_value_small :
    (1 : UInt64) ∈ voteDomain ∧ Ciphertext.encrypt PublicKey.small 1 2 = .ok ⟨16, 13⟩ ∧
    5 < PublicKey.small.group.q ∧
    Set.BijOn (ofCoins PublicKey.small.group voteDomain 1 2 5)
      (Coins PublicKey.small.group voteDomain 1) (Splits PublicKey.small.group 2 5) ∧
    ∀ r proof,
      {coins ∈ Coins PublicKey.small.group voteDomain 1 |
        ofCoins PublicKey.small.group voteDomain 1 2 5 coins = proof}.ncard =
      {coins ∈ Coins PublicKey.small.group voteDomain 0 |
        ofCoins PublicKey.small.group voteDomain 0 r 5 coins = proof}.ncard := by
  have hone : (1 : UInt64) ∈ voteDomain := by decide
  have hencrypt : Ciphertext.encrypt PublicKey.small 1 2 = .ok ⟨16, 13⟩ := rfl
  have hchallenge : 5 < PublicKey.small.group.q := by decide
  obtain ⟨_, _, hbij, _, hcount⟩ :=
    proofs_hide_value (m := 1) (r := 2) hone hencrypt hchallenge
  exact ⟨hone, hencrypt, hchallenge, hbij, hcount 0 (by decide)⟩

end Hiding

end MembershipProof

end SecretBallot
