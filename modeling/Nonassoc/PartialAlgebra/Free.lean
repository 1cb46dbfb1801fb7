import Nonassoc.PartialAlgebra

/-!
# The truncated free algebra

Up to a given degree, every product of two basis elements is a new basis element. So the basis
consists of the monomials in the generators, and all products up to that degree are known. Main
definition: `PartialAlgebra.free`.
-/

namespace Nonassoc.PartialAlgebra

open Multidegree (Name Table)

/-- The names of the degrees from one up to `d - 1`, ascending. -/
def leftNames (t : Table) (d : Nat) : List Name := (List.range' 1 (d - 1)).flatMap t.ofDegree

/-- Enters the product of two basis elements as a new basis element. -/
def pushProduct (t : Table) (name : Name) (left right : BasisId) (b : Basis) (p : ProductTable) :
    Except AlgebraError (Basis × ProductTable) := do
  let new := b.size
  let b ← (b.push (some (left, right)) name).mapError .basis
  let p ← p.enter t b left right (Element.basis new)
  return (b, p)

/-- Enters the products of all basis elements of two multidegrees, left factors slowest. -/
def pushProducts (t : Table) (name left right : Name) (b : Basis) (p : ProductTable) :
    Except AlgebraError (Basis × ProductTable) :=
  (b.ofName left).foldlM (fun s l =>
    (s.1.ofName right).foldlM (fun s r => pushProduct t name l r s.1 s.2) s) (b, p)

/-- Enters the products of a multidegree of degree `d`: for each left factor's multidegree in turn,
the right factors have what is left. -/
def pushName (t : Table) (d : Nat) (b : Basis) (p : ProductTable) (name : Name) :
    Except AlgebraError (Basis × ProductTable) :=
  (leftNames t d).foldlM (fun s left => do
    match ← (t.subtract name left).mapError .fault with
    | some right => pushProducts t name left right s.1 s.2
    | none => return s) (b, p)

/-- The free algebra on the generators below `target`, with the products of degree at most
`maxDegree`. -/
def free (field : PrimeField) (target : Multidegree) (maxDegree : Nat) :
    Except AlgebraError PartialAlgebra := do
  let t ← (Table.ofTarget target).mapError .multidegree
  let (failure, generators) := (Basis.empty t).pushAllGenerators t
  if let some e := failure then throw (.basis e)
  let degrees := List.range' 2 (min maxDegree target.degree - 1)
  let (basis, products) ← degrees.foldlM (fun s d =>
    (t.ofDegree d).foldlM (fun s name => pushName t d s.1 s.2 name) s) (generators, .empty)
  return { field, table := t, basis, products }

end Nonassoc.PartialAlgebra
