import SecretBallot.Group.Basic

namespace SecretBallot

namespace Group

variable (group : Group)

/-- The coefficient of index `i` among `indices`: the product of `j / (j - i)` over the others. -/
def lagrange (indices : List Nat) (i : Nat) : Outcome Nat :=
  (indices.filter (· ≠ i)).foldlM
    (fun product j => do
      let inverse ← group.invertQ (group.subQ j i)
      pure (group.mulQ product (group.mulQ j inverse)))
    1

/-- The coefficients of all indices, in their order. -/
def lagranges (indices : List Nat) : Outcome (List Nat) :=
  indices.mapM (group.lagrange indices)

/-- The value at zero of the polynomial through the points. -/
def interpolate (points : List (Nat × Nat)) : Outcome Nat := do
  let coefficients ← group.lagranges (points.map (·.1))
  pure (group.sumQ (List.zipWith group.mulQ coefficients (points.map (·.2))))

/-- Interpolation in the exponent: if every value is `v ^ y` for the value `y` of a polynomial at
    its index, the result is `v` to the value of that polynomial at zero. -/
def interpolateInExponent (points : List (Nat × Nat)) : Outcome Nat := do
  let coefficients ← group.lagranges (points.map (·.1))
  let powers ← (points.zip coefficients).mapM fun ((_, value), coefficient) =>
    group.pow value coefficient
  pure (group.product powers)

end Group

end SecretBallot
