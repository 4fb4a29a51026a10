import SecretBallot.Key.Private
import SecretBallot.Sharing.Polynomial

namespace SecretBallot

/-- The value of a dealer's polynomial at the recipient's index. -/
structure SecretShare where
  dealer : UInt64
  recipient : UInt64
  value : Nat
  deriving DecidableEq

instance : Wipe SecretShare := ⟨fun share => { share with value := Wipe.wipe share.value }⟩

/-- A key authority. Slot `i - 1` of `received` holds the share accepted from dealer `i`, the same
    slot of `committed` the public share which that dealer committed to. -/
structure Authority where
  group : Group
  index : UInt64
  n : UInt64
  t : UInt64
  key : AuthorityKey
  polynomial : Polynomial
  received : List (Option Nat)
  committed : List (Option Nat)
  deriving DecidableEq

/-- The indices of `n` authorities, from one on. -/
def authorityIndices (n : UInt64) : List UInt64 :=
  (List.range n.toNat).map fun i => UInt64.ofNat (i + 1)

namespace Authority

/-- A fresh authority. It holds its own share from the start. -/
def new (group : Group) (n t index : UInt64) : Draw Authority := do
  ensure (1 ≤ index ∧ index ≤ n ∧ t ≠ 0 ∧ t ≤ n ∧ n.toNat < group.q)
    (.invalidParameters n.toNat t.toNat index.toNat)
  let key ← AuthorityKey.generate group index
  let polynomial ← Polynomial.sample group (t.toNat - 1) key.x
  let share := polynomial.evaluate group index.toNat
  let received ← replaceAt (List.replicate n.toNat none) (index - 1).toNat (some share)
  let committed ← replaceAt (List.replicate n.toNat none) (index - 1).toNat (some key.h)
  pure { group, index, n, t, key, polynomial, received, committed }

def publicShare (authority : Authority) : PublicShare :=
  authority.key.publicShare

/-- What the authority deals: its commitment for everyone and a share for each other authority. -/
def publish (authority : Authority) : Commitment × List SecretShare :=
  let recipients := (authorityIndices authority.n).filter (· ≠ authority.index)
  let shares := recipients.map fun recipient =>
    ⟨authority.index, recipient, authority.polynomial.evaluate authority.group recipient.toNat⟩
  (authority.polynomial.commit authority.group, shares)

/-- Accepts a share that is meant for this authority, the first of its dealer, and fits a
    commitment of `t` elements. -/
def receive (share : SecretShare) (commitment : Commitment) : Action Authority Unit := do
  let authority ← get
  -- the index of dealer zero would wrap around
  let slot := (share.dealer - 1).toNat
  let size := commitment.elements.length
  ensure (share.recipient = authority.index)
    (.invalidShare (.misdelivered share.recipient.toNat authority.index.toNat))
  ensure (1 ≤ share.dealer ∧ share.dealer ≤ authority.n)
    (.invalidParameters authority.n.toNat authority.t.toNat share.dealer.toNat)
  ensure (size = authority.t.toNat) (.countMismatch .coefficients authority.t.toNat size)
  let held ← entryAt authority.received slot
  ensure (held = none) (.duplicateAuthority share.dealer.toNat)
  let verifies ← commitment.verifyShare authority.group authority.index.toNat share.value
  ensure verifies (.invalidShare (.againstCommitment share.dealer.toNat))
  let received ← replaceAt authority.received slot (some share.value)
  let committed ← replaceAt authority.committed slot commitment.publicShare
  set { authority with received, committed }

/-- Checks one published share against what its authority committed to. -/
def checkPublicShare (authority : Authority) (share : PublicShare) : Except Error Unit :=
  let slot := if share.index = 0 then none else authority.committed[share.index.toNat - 1]?
  match slot with
  | none =>
    .error (.invalidParameters authority.n.toNat authority.t.toNat share.index.toNat)
  | some none => .error (.uninitialized .committedShares)
  | some (some h) => ensure (h = share.h) (.invalidShare (.notCommitted share.index.toNat))

/-- Checks that as many public shares were published as there are authorities, each the one that
    its authority committed to. -/
def checkPublicShares (authority : Authority) (shares : List PublicShare) :
    Except Error Unit := do
  let count := shares.length
  ensure (count = authority.n.toNat) (.countMismatch .authorities authority.n.toNat count)
  shares.forM authority.checkPublicShare

/-- The authority's point on the joint polynomial, once every dealer's share is in. -/
def finish (authority : Authority) : Except Error PrivateShare := do
  ensure (authority.received.all Option.isSome) (.uninitialized .receivedShares)
  PrivateShare.new authority.group authority.index authority.t
    (authority.group.sumQ (authority.received.filterMap id))

end Authority

end SecretBallot
