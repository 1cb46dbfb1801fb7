import Nonassoc.ProductTable

/-!
# Partially known algebras

A field, a table of multidegrees, a basis, and the products known so far. `PartialAlgebra.multiply`
extends the table bilinearly; it fails at the first product that it needs and does not know.
-/

namespace Nonassoc

open Multidegree (Table)

/-- What is known of an algebra. -/
structure PartialAlgebra where
  field : PrimeField
  table : Table
  basis : Basis
  products : ProductTable

namespace PartialAlgebra

/-- Adds `x` times the product of two basis elements to `sum`. -/
def addProduct (a : PartialAlgebra) (left right : BasisId) (x : Scalar) (sum : Element) :
    Except AlgebraError Element :=
  match a.products.product? left right with
  | none => .error (.unknownProduct left right)
  | some product =>
    .ok (product.terms.foldl (fun sum (b, z) => sum.addAt a.field b (a.field.mul x z)) sum)

/-- The product of two elements, which needs the products of all pairs of their terms. -/
def multiply (a : PartialAlgebra) (u v : Element) : Except AlgebraError Element :=
  u.terms.foldlM (fun sum (left, x) =>
    v.terms.foldlM (fun sum (right, y) => a.addProduct left right (a.field.mul x y) sum) sum)
    Element.zero

end PartialAlgebra

end Nonassoc
