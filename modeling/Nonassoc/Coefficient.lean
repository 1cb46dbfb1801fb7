/-!
# Machine coefficients

Coefficients are integers that have to fit a signed machine word of 64 bits. They are computed as
integers, and every result passes `Coefficient.fit?`, so nothing ever wraps.
-/

namespace Nonassoc.Coefficient

/-- The largest coefficient. -/
def maximum : Int := 9223372036854775807

/-- The smallest coefficient. -/
def minimum : Int := -9223372036854775808

/-- `x` if it fits. -/
def fit? (x : Int) : Option Int := if minimum ≤ x ∧ x ≤ maximum then some x else none

theorem fit?_eq_some {x y : Int} : fit? x = some y ↔ (minimum ≤ x ∧ x ≤ maximum) ∧ x = y := by
  simp [fit?]

end Nonassoc.Coefficient
