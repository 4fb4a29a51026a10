import SecretBallot.Ceremony.Run

namespace SecretBallot

/-- The size of a key ceremony: how many authorities take part and how many suffice to
    decrypt. -/
structure CeremonySize where
  authorities : UInt64
  threshold : UInt64
  threshold_ne_zero : threshold ≠ 0
  threshold_le : threshold ≤ authorities

namespace CeremonySize

def new (authorities threshold : UInt64) : Except Error CeremonySize :=
  if h : threshold ≠ 0 ∧ threshold ≤ authorities then
    .ok ⟨authorities, threshold, h.1, h.2⟩
  else .error (.invalidParameters authorities.toNat threshold.toNat 0)

/-- Runs a ceremony between fresh authorities, with a random second generator. -/
def runCeremony (size : CeremonySize) (group : Group) :
    Draw (PublicKey × List PrivateShare) := do
  let authorities ← Ceremony.authorities group size.authorities size.threshold
  let f ← Draw.generator group
  (Ceremony.run f authorities).1

end CeremonySize

end SecretBallot
