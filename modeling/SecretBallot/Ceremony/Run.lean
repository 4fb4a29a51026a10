import SecretBallot.Ceremony.Authority

namespace SecretBallot

namespace Ceremony

/-- The last `count` of `n` fresh authorities. -/
def lastAuthorities (group : Group) (n t : UInt64) : (count : Nat) → Draw (List Authority)
  | 0 => pure []
  | count + 1 => do
    let first ← Authority.new group n t (n - UInt64.ofNat count)
    let rest ← lastAuthorities group n t count
    pure (first :: rest)

/-- `n` fresh authorities, `t` of whom suffice to decrypt. -/
def authorities (group : Group) (n t : UInt64) : Draw (List Authority) :=
  lastAuthorities group n t n.toNat

/-- Acts on the first authority with the given index. -/
def onRecipient {α : Type} (recipient : UInt64) (action : Action Authority α) :
    List Authority → Except Failure α × List Authority
  | [] => (.error (.refused (.uninitialized .recipient)), [])
  | authority :: rest =>
    if authority.index = recipient then
      let (outcome, changed) := action authority
      (outcome, changed :: rest)
    else
      let (outcome, changed) := onRecipient recipient action rest
      (outcome, authority :: changed)

def deliver (commitment : Commitment) (share : SecretShare) : Action (List Authority) Unit :=
  onRecipient share.recipient (Authority.receive share commitment)

/-- Runs the ceremony with a second generator `f`. -/
def run (f : Nat) : Action (List Authority) (PublicKey × List PrivateShare) := do
  match (← get) with
  | [] => refuse (.uninitialized .authorities)
  | first :: rest =>
    let dealt := (first :: rest).map Authority.publish
    dealt.forM fun (commitment, shares) => shares.forM (deliver commitment)
    let present ← get
    let publicShares := present.map Authority.publicShare
    present.forM fun authority => authority.checkPublicShares publicShares
    let publicKey ← PublicKey.combine first.group f publicShares
    let privateShares ← present.mapM fun authority => authority.finish
    pure (publicKey, privateShares)

end Ceremony

end SecretBallot
