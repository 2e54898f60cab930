import ScopedEffects.Number.Binary64

/-! Spreading a number: a random part is added to it, drawn evenly from between two bounds at the same
distance on either side. Nothing can be drawn where a bound or the distance between the two is not
finite. -/

namespace ScopedEffects

/-- Why nothing can be drawn from between two bounds. -/
inductive SpreadFault where
  | endlessBound
  | endlessWidth
  deriving DecidableEq, Repr

def SpreadFault.message : SpreadFault → String
  | .endlessBound => "Uniform::new_inclusive called with `low` non-finite."
  | .endlessWidth => "Uniform::new_inclusive: range overflow"

namespace Binary64

/-- The greatest of the evenly spaced numbers from zero to below one that are drawn. -/
def greatestDraw : Binary64 := ofRatio false (Nat.pow 2 52 - 1) (Nat.pow 2 52)

/-- The number moved by up to `reach` in either direction, as far as a draw between minus one and one
says. -/
def spread (x reach draw : Binary64) : Except SpreadFault Binary64 :=
  if !reach.isFinite then .error .endlessBound
  else if !((reach.add reach).div greatestDraw).isFinite then .error .endlessWidth
  else .ok (x.add (draw.mul reach))

/-- Bounds further apart than the greatest finite number cannot be drawn from. -/
example : ([ofDecimal false 8 307, ofDecimal false 1 308, .infinite false].map fun reach =>
    match spread one reach one with
    | .ok _ => none
    | .error fault => some fault) = [none, some .endlessWidth, some .endlessBound] := by
  decide +kernel

end Binary64

end ScopedEffects
