import Nonassoc.Basis
import Nonassoc.PrimeField

/-!
# Equations

An equation is a sum of multiples of products of two basis elements that is zero. Products may
repeat.
-/

namespace Nonassoc

/-- `coefficient * (left * right)`, where the product need not be known. -/
structure Pair where
  coefficient : Scalar
  left : BasisId
  right : BasisId
  deriving DecidableEq

/-- Pairs that add up to zero. -/
structure Equation where
  pairs : List Pair
  deriving DecidableEq

/-- A pair as text, `250 b1*b0`. -/
def Pair.text (p : Pair) : String :=
  toString p.coefficient ++ " " ++ p.left.text ++ "*" ++ p.right.text

namespace Equation

/-- The number of pairs. -/
def size (e : Equation) : Nat := e.pairs.length

/-- The left side as text. -/
def text (e : Equation) : String := String.intercalate " + " (e.pairs.map Pair.text)

end Equation

end Nonassoc
