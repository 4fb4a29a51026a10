import Mathlib
import SecretBallot.Proofs.Ballot.Reseal

namespace SecretBallot

/-- No race with votes is followed by one of its name. -/
def SealedBallot.Unshadowed (ballot : SealedBallot) : Prop :=
  ballot.races.Pairwise fun race later => race.name = later.name → race.votes.size = 0

instance : DecidablePred SealedBallot.Unshadowed :=
  fun ballot => inferInstanceAs (Decidable (ballot.races.Pairwise _))

theorem SealedBallot.unshadowed_of_nodup {ballot : SealedBallot}
    (hnames : (ballot.races.map (·.name)).Nodup) : ballot.Unshadowed :=
  (List.pairwise_map.1 hnames).imp fun hne heq => absurd heq hne

section Sealed

variable {key : PublicKey} {nonce : Bytes} {prover reached : Prover}

/-- A sum is proved only of ciphertexts that multiply to an encryption of it. -/
theorem SumProof.encrypt_of_prove {hash : Hash} {ciphertexts : List Ciphertext} {total : UInt64}
    {randomness : List Nat} {context : Bytes} {proof : SumProof}
    (hprove : prove hash key ciphertexts total randomness context prover = (.ok proof, reached)) :
    Ciphertext.encrypt key total.toNat (key.group.sumQ randomness) =
      .ok (Ciphertext.combineAll key.group ciphertexts) := by
  rw [prove] at hprove
  obtain ⟨_, _, _, hprove⟩ := Action.bind_eq_ok_iff.1 hprove
  obtain ⟨opened, _, hopened, hprove⟩ := Action.bind_eq_ok_iff.1 hprove
  obtain ⟨hencrypt, _⟩ := Action.lift_apply_eq_ok_iff.1 hopened
  obtain ⟨_, _, hensure, _⟩ := Action.bind_eq_ok_iff.1 hprove
  rw [Action.liftExcept_apply, Prod.mk.injEq, lift_eq_ok_iff, ensure_eq_ok_iff] at hensure
  rw [hencrypt, hensure.1]

/-- What a race is sealed from opens it, and sums to what the race declares. -/
theorem of_sealRace_eq_ok {name : String} {limit : UInt64} {openings : Dict String Opening}
    {race : SealedRace}
    (hseal : sealRace key name limit openings nonce prover = (.ok race, reached)) :
    race.name = name ∧ race.limit = limit ∧ AreOpened key openings race.votes ∧
      SumTo key openings limit := by
  rw [sealRace] at hseal
  obtain ⟨votes, _, hvotes, hseal⟩ := Action.bind_eq_ok_iff.1 hseal
  obtain ⟨sumProof, _, hsum, hpure⟩ := Action.bind_eq_ok_iff.1 hseal
  rw [Action.pure_eq_ok_iff] at hpure
  obtain ⟨rfl, _⟩ := hpure
  have hopened : AreOpened key openings votes := by
    refine (Dict.mapM_eq_ok hvotes).imp fun opening vote => ?_
    rintro ⟨hkey, _, _, hvote⟩
    exact ⟨hkey, Opening.encrypt_of_seal hvote⟩
  refine ⟨rfl, rfl, hopened, ?_⟩
  have hiff := Ciphertext.encrypt_eq_combineAll_iff hopened.areEncryptions limit.toNat
  rw [List.map_map, List.map_map] at hiff
  exact hiff.1 (SumProof.encrypt_of_prove hsum)

/-- A sealed race with openings was made from a race: it has the name, the limit and as many votes,
    and the openings open it. -/
structure IsOpenedFrom (sealed : SealedRace × Dict String Opening) (before : SealedRace)
    (key : PublicKey) : Prop where
  name_eq : sealed.1.name = before.name
  size_eq : sealed.2.size = before.votes.size
  opened : AreOpened key sealed.2 sealed.1.votes
  sum : SumTo key sealed.2 sealed.1.limit

theorem SealedRace.isOpenedFrom_of_reseal {before : SealedRace} {witness : Witness}
    {sealed : SealedRace × Dict String Opening}
    (hreseal : before.reseal key witness nonce prover = (.ok sealed, reached)) :
    IsOpenedFrom sealed before key := by
  rw [SealedRace.reseal] at hreseal
  obtain ⟨openings, _, hopenings, hreseal⟩ := Action.bind_eq_ok_iff.1 hreseal
  obtain ⟨race, _, hrace, hpure⟩ := Action.bind_eq_ok_iff.1 hreseal
  rw [Action.pure_eq_ok_iff] at hpure
  obtain ⟨rfl, _⟩ := hpure
  obtain ⟨hname, hlimit, hopened, hsum⟩ := of_sealRace_eq_ok hrace
  exact ⟨hname, (Dict.mapM_eq_ok hopenings).length_eq.symm, hopened, hlimit ▸ hsum⟩

/-- A ballot that is sealed again is assembled from races made from its own, one by one. -/
theorem SealedBallot.exists_of_reseal {ballot : SealedBallot} {witness : Witness}
    {supply rest : Bytes} {sealed : SealedBallot × Witness}
    (hreseal : ballot.reseal key witness nonce supply = (.ok sealed, rest)) :
    ∃ races, List.Forall₂ (fun before sealed => IsOpenedFrom sealed before key) ballot.races races ∧
      sealed = assemble ballot.id nonce races := by
  rw [SealedBallot.reseal] at hreseal
  obtain ⟨_, _, _, hreseal⟩ := Action.bind_eq_ok_iff.1 hreseal
  obtain ⟨races, _, hraces, hpure⟩ := Action.bind_eq_ok_iff.1 hreseal
  rw [Action.pure_eq_ok_iff] at hpure
  obtain ⟨_, hmapped, _⟩ := Action.zoom_eq_ok_iff.1 hraces
  refine ⟨races, (Action.mapM_eq_ok hmapped).imp fun before sealed => ?_, hpure.1.symm⟩
  rintro ⟨_, _, hrace⟩
  exact SealedRace.isOpenedFrom_of_reseal hrace

end Sealed

section Again

variable {key : PublicKey} {ballot : SealedBallot} {races : List (SealedRace × Dict String Opening)}
  (hraces : List.Forall₂ (fun before sealed => IsOpenedFrom sealed before key) ballot.races races)

include hraces

theorem unshadowed_iff : ballot.Unshadowed ↔ KeepsOpenings races := by
  have hsizes : ballot.races.map (fun race => (race.name, race.votes.size)) =
      races.map fun pair => (pair.1.name, pair.2.size) :=
    map_eq_map_of_forall₂ hraces fun _ _ hopened => by rw [hopened.name_eq, hopened.size_eq]
  have hballot : ballot.Unshadowed ↔ (ballot.races.map fun race =>
      (race.name, race.votes.size)).Pairwise fun race later => race.1 = later.1 → race.2 = 0 := by
    rw [List.pairwise_map]
    rfl
  have hpairs : KeepsOpenings races ↔ (races.map fun pair =>
      (pair.1.name, pair.2.size)).Pairwise fun race later => race.1 = later.1 → race.2 = 0 := by
    rw [KeepsOpenings, Dict.KeepsWeight, List.pairwise_map, List.pairwise_map]
  rw [hballot, hpairs, hsizes]

theorem areOpened_of_isOpenedFrom : ∀ pair ∈ races, AreOpened key pair.2 pair.1.votes := by
  intro pair hpair
  obtain ⟨_, _, hopened⟩ := exists_of_mem_of_forall₂ hraces hpair
  exact hopened.opened

theorem sumTo_of_isOpenedFrom : ∀ pair ∈ races, SumTo key pair.2 pair.1.limit := by
  intro pair hpair
  obtain ⟨_, _, hopened⟩ := exists_of_mem_of_forall₂ hraces hpair
  exact hopened.sum

end Again

namespace SealedBallot

variable {key : PublicKey} {ballot resealed : SealedBallot} {witness fresh : Witness}
  {nonce supply rest : Bytes}

/-- The witness that sealing a ballot again returns opens the new ballot exactly if no race with
    votes is followed by one of its name, as in every ballot whose races have distinct names. Then
    the new ballot can be sealed with it any other time, as long as random bytes are left; otherwise
    it has too few openings and never can. -/
theorem returned_witness_opens_iff
    (hreseal : ballot.reseal key witness nonce supply = (.ok (resealed, fresh), rest)) :
    (fresh.Opens key resealed ↔ ballot.Unshadowed) ∧
      ((ballot.races.map (·.name)).Nodup → ballot.Unshadowed) ∧
      (ballot.Unshadowed → ∀ next left,
        (resealed.reseal key fresh next left).1 ≠ .error .exhausted →
        ∃ again, (resealed.reseal key fresh next left).1 = .ok again) ∧
      (¬ ballot.Unshadowed → fresh.size < resealed.voteCount ∧ ∀ next left,
        resealed.reseal key fresh next left =
          (.error (.refused (.ballotMismatch .witnessSize)), left)) := by
  obtain ⟨races, hraces, hassemble⟩ := exists_of_reseal hreseal
  obtain ⟨hresealed, hfresh⟩ : resealed = (assemble ballot.id nonce races).1 ∧
      fresh = (assemble ballot.id nonce races).2 := Prod.ext_iff.1 hassemble
  subst hresealed hfresh
  have hopened := areOpened_of_isOpenedFrom hraces
  have hsum := sumTo_of_isOpenedFrom hraces
  refine ⟨?_, unshadowed_of_nodup, fun hunshadowed next left hleft => ?_, fun hshadowed => ?_⟩
  · exact (Witness.opens_assemble_iff hopened).trans (unshadowed_iff hraces).symm
  · obtain ⟨again, _, hrun, _⟩ := (completes_reseal_assemble ballot.id hopened hsum
      ((unshadowed_iff hraces).1 hunshadowed) next left).exists_ok hleft
    exact ⟨again, congrArg Prod.fst hrun⟩
  · have hne : (assemble ballot.id nonce races).2.size ≠
        (assemble ballot.id nonce races).1.voteCount := fun hsize =>
      hshadowed ((unshadowed_iff hraces).2 ((Witness.size_assemble hopened).2.1 hsize))
    refine ⟨lt_of_le_of_ne (Witness.size_assemble hopened).1 hne, fun next left => ?_⟩
    rw [reseal, Action.ensure_bind_apply, if_neg hne]

/-- A race without candidates in front of one of its name. -/
def emptyInFront : SealedBallot :=
  ⟨"ballot", [7], [⟨"mayor", 0, ∅, ⟨0, 0⟩⟩,
    ⟨"mayor", 1, Dict.ofList [("ann", ⟨⟨1, 4⟩, ⟨[], []⟩⟩)], ⟨0, 0⟩⟩]⟩

/-- The repeated name does no harm, as the race that it hides has no votes. -/
theorem returned_witness_opens_iff_smallest :
    let witness : Witness := ⟨Dict.ofList [("mayor", Dict.ofList [("ann", ⟨true, 0⟩)])]⟩
    ∃ resealed fresh rest,
      emptyInFront.reseal .smallest witness [8] [0, 1, 1, 0, 1, 0] = (.ok (resealed, fresh), rest) ∧
      emptyInFront.Unshadowed ∧ fresh.Opens .smallest resealed ∧
      ∃ again, (resealed.reseal .smallest fresh [9] [1, 0, 0, 1, 1, 0]).1 = .ok again := by
  intro witness
  have hunshadowed : emptyInFront.Unshadowed := by decide
  have htwice : ((emptyInFront.reseal .smallest witness [8] [0, 1, 1, 0, 1, 0]).1 >>= fun sealed =>
      (sealed.1.reseal .smallest sealed.2 [9] [1, 0, 0, 1, 1, 0]).1).toOption.isSome = true := by
    decide +kernel
  rcases hreseal : emptyInFront.reseal .smallest witness [8] [0, 1, 1, 0, 1, 0] with
    ⟨outcome, rest⟩
  rw [hreseal] at htwice
  cases outcome with
  | error failure => cases htwice
  | ok sealed =>
    obtain ⟨resealed, fresh⟩ := sealed
    obtain ⟨hopens, _, hagain, _⟩ := returned_witness_opens_iff hreseal
    have hleft : (resealed.reseal .smallest fresh [9] [1, 0, 0, 1, 1, 0]).1 ≠
        .error .exhausted := by
      intro hexhausted
      change (resealed.reseal .smallest fresh [9] [1, 0, 0, 1, 1, 0]).1.toOption.isSome = true
        at htwice
      rw [hexhausted] at htwice
      cases htwice
    exact ⟨resealed, fresh, rest, rfl, hunshadowed, hopens.2 hunshadowed,
      hagain hunshadowed [9] _ hleft⟩

/-- The votes of a race in two races of its name. -/
def splitInTwo : SealedBallot :=
  ⟨"ballot", [7], [⟨"mayor", 1, Dict.ofList [("ann", ⟨⟨1, 4⟩, ⟨[], []⟩⟩)], ⟨0, 0⟩⟩,
    ⟨"mayor", 0, Dict.ofList [("ben", ⟨⟨4, 4⟩, ⟨[], []⟩⟩)], ⟨0, 0⟩⟩]⟩

/-- This ballot is read and sealed again with a witness for both of its votes. The witness returned
    has one opening, so that sealing the new ballot with it is refused. -/
theorem returned_witness_misses_an_opening :
    let witness : Witness :=
      ⟨Dict.ofList [("mayor", Dict.ofList [("ann", ⟨true, 0⟩), ("ben", ⟨false, 1⟩)])]⟩
    (Wire.decode (Wire.encode splitInTwo) : Except Error SealedBallot) = .ok splitInTwo ∧
      ∃ resealed fresh rest, splitInTwo.reseal .smallest witness [8]
          [0, 1, 1, 0, 1, 0, 1, 0, 1, 0] = (.ok (resealed, fresh), rest) ∧
        fresh.size = 1 ∧ resealed.voteCount = 2 ∧ ¬ fresh.Opens .smallest resealed ∧
        (resealed.reseal .smallest fresh [9] []).1 =
          .error (.refused (.ballotMismatch .witnessSize)) := by
  intro witness
  have hread : (Wire.decode (Wire.encode splitInTwo) : Except Error SealedBallot) =
      .ok splitInTwo := by
    decide +kernel
  have hsizes : (splitInTwo.reseal .smallest witness [8]
      [0, 1, 1, 0, 1, 0, 1, 0, 1, 0]).1.toOption.map
        (fun sealed => (sealed.2.size, sealed.1.voteCount)) = some (1, 2) := by
    decide +kernel
  rcases hreseal : splitInTwo.reseal .smallest witness [8] [0, 1, 1, 0, 1, 0, 1, 0, 1, 0] with
    ⟨outcome, rest⟩
  rw [hreseal] at hsizes
  cases outcome with
  | error failure => cases hsizes
  | ok sealed =>
    obtain ⟨resealed, fresh⟩ := sealed
    obtain ⟨hfresh, hcount⟩ : fresh.size = 1 ∧ resealed.voteCount = 2 := by
      simpa [Except.toOption] using hsizes
    have hne : fresh.size ≠ resealed.voteCount := by omega
    refine ⟨hread, resealed, fresh, rest, rfl, hfresh, hcount, fun hopens => hne hopens.size_eq, ?_⟩
    rw [reseal, Action.ensure_bind_apply, if_neg hne]

end SealedBallot

end SecretBallot
