import SecretBallot.Ballot.Open

namespace SecretBallot

namespace Slot

/-- The parts of a slot's text, which tell slots apart. -/
def parts : Slot → List String
  | .total race candidate => [race, candidate]
  | .vote ballot race candidate => [ballot, race, candidate]

theorem parts_inj {a b : Slot} (hparts : a.parts = b.parts) : a = b := by
  cases a <;> cases b <;> simp_all [parts]

instance : Ord Slot := ⟨fun a b => compare a.parts b.parts⟩

instance : Std.TransOrd Slot where
  eq_swap {a b} :=
    (Std.OrientedCmp.eq_swap : compare a.parts b.parts = (compare b.parts a.parts).swap)
  isLE_trans {a _ c} hab hbc :=
    (Std.TransCmp.isLE_trans hab hbc : (compare a.parts c.parts).isLE = true)

instance : Std.LawfulEqOrd Slot where
  compare_self {a} := (Std.ReflCmp.compare_self : compare a.parts a.parts = .eq)
  eq_of_compare h := parts_inj (Std.LawfulEqCmp.eq_of_compare h)

end Slot

/-- The encrypted totals by race and candidate, and the challenged ballots in the order of their
    ids. -/
structure ClosedTally where
  totals : Dict String (Dict String Ciphertext)
  challenged : List SealedBallot
  deriving DecidableEq

namespace ClosedTally

/-- The total of every candidate. -/
def totalSlots (tally : ClosedTally) : List (Slot × Ciphertext) :=
  tally.totals.entries.flatMap fun (race, totals) =>
    totals.entries.map fun (candidate, total) => (.total race candidate, total)

/-- Every vote of the challenged ballots. -/
def voteSlots (tally : ClosedTally) : List (Slot × Ciphertext) :=
  tally.challenged.flatMap fun ballot =>
    ballot.races.flatMap fun race =>
      race.votes.entries.map fun (candidate, vote) =>
        (.vote ballot.id race.name candidate, vote.ciphertext)

/-- Decrypts every total with `opener`. -/
def openTotals (tally : ClosedTally) (opener : VoteOpener) :
    Outcome (Dict String (Dict String Nat)) :=
  tally.totals.mapM fun race totals =>
    totals.mapM fun candidate total => opener race candidate total

/-- Opens the challenged ballots, where `opener` is told the id of the ballot. -/
def openChallenged (tally : ClosedTally) (opener : String → VoteOpener) :
    Outcome (Dict String PlainBallot) := do
  let opened ← tally.challenged.mapM fun ballot => do
    let plain ← ballot.openWith (opener ballot.id)
    pure (ballot.id, plain)
  pure (Dict.ofList opened)

end ClosedTally

/-- One authority's partial decryptions of a closed tally. -/
structure DecryptionShare where
  index : UInt64
  parts : Dict Slot PartialDecryption
  deriving DecidableEq

namespace DecryptionShare

def new (share : PrivateShare) (tally : ClosedTally) : Outcome DecryptionShare := do
  let parts ← (tally.totalSlots ++ tally.voteSlots).mapM fun (slot, ciphertext) => do
    let part ← Ciphertext.partialDecrypt share ciphertext
    pure (slot, part)
  pure ⟨share.index, Dict.ofList parts⟩

/-- The partial decryptions of one slot, refused if an authority left it out. -/
def gather (shares : List DecryptionShare) (slot : Slot) :
    Except Error (List PartialDecryption) :=
  shares.mapM fun share =>
    match share.parts.get? slot with
    | some part => .ok part
    | none => .error (.invalidShare (.slotMissing share.index.toNat slot))

/-- Decrypts one slot from the shares. -/
def decrypt (shares : List DecryptionShare) (group : Group) (slot : Slot)
    (ciphertext : Ciphertext) (bound : Nat) : Outcome Nat := do
  let parts ← gather shares slot
  ciphertext.decryptWithPartials group parts bound

end DecryptionShare

end SecretBallot
