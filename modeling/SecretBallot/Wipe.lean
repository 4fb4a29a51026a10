import SecretBallot.Bytes

namespace SecretBallot

/-- Secrets that can be overwritten before they are given up. What is wiped keeps its shape and
    loses its content. -/
class Wipe (α : Type) where
  wipe : α → α

instance : Wipe Nat := ⟨fun _ => 0⟩

instance : Wipe Bool := ⟨fun _ => false⟩

instance {α : Type} [Wipe α] : Wipe (List α) := ⟨List.map Wipe.wipe⟩

end SecretBallot
