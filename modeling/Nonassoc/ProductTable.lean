import Nonassoc.Element

/-!
# Product tables

The known products of basis elements. A product may be entered if its factors and its terms are in
the basis and every term has the multidegree of the product, so the table never holds an ill-typed
product. Main definitions: `ProductTable.enter` and `ProductTable.product?`.
-/

namespace Nonassoc

open Multidegree (Name Table)

/-- Why a product is unknown or cannot be entered, or why an algebra cannot be set up. -/
inductive AlgebraError where
  | unknownProduct (left right : BasisId)
  | unknownBasis (b : BasisId)
  | wrongName (left right term : BasisId) (found : Name) (expected : Option Name)
  | basis (e : BasisError)
  | multidegree (e : MultidegreeError)
  | fault (f : Fault)
  deriving DecidableEq

/-- The multidegree that was expected, if there is one at all. -/
def expectedText : Option Name → String
  | some n => "Some(" ++ n.text ++ ")"
  | none => "None"

/-- The wording of an error. -/
def AlgebraError.message : AlgebraError → String
  | unknownProduct l r =>
    "product " ++ l.text ++ " * " ++ r.text ++ " is not in the multiplication table"
  | unknownBasis b => b.text ++ " is not a basis element"
  | wrongName l r term found expected =>
    "product " ++ l.text ++ " * " ++ r.text ++ " cannot contain " ++ term.text ++ " of type " ++
      found.text ++ ", expected " ++ expectedText expected
  | basis e => e.message
  | multidegree e => e.message
  | fault f => f.message

/-- The known products. -/
structure ProductTable where
  products : Std.HashMap (BasisId × BasisId) Element

namespace ProductTable

/-- The table without products. -/
def empty : ProductTable := ⟨∅⟩

/-- The number of known products. -/
def size (p : ProductTable) : Nat := p.products.size

/-- The product of two basis elements, if it is known. -/
def product? (p : ProductTable) (left right : BasisId) : Option Element :=
  p.products[(left, right)]?

/-- The first term of a product that is not in the basis or not of the expected multidegree. -/
def checkTerms (b : Basis) (left right : BasisId) (expected : Option Name) :
    List (BasisId × Scalar) → Except AlgebraError Unit
  | [] => .ok ()
  | (term, _) :: rest =>
    match b.nameOf term with
    | .error _ => .error (.unknownBasis term)
    | .ok found =>
      if some found = expected then checkTerms b left right expected rest
      else .error (.wrongName left right term found expected)

/-- Enters the product of two basis elements, in place of an earlier one. -/
def enter (p : ProductTable) (t : Table) (b : Basis) (left right : BasisId) (product : Element) :
    Except AlgebraError ProductTable :=
  match b.nameOf left, b.nameOf right with
  | .error _, _ => .error (.unknownBasis left)
  | .ok _, .error _ => .error (.unknownBasis right)
  | .ok l, .ok r => do
    let expected ← (t.add l r).mapError .fault
    checkTerms b left right expected product.terms
    return ⟨p.products.insert (left, right) product⟩

end ProductTable

end Nonassoc
