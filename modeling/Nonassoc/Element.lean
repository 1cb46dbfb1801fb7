import Nonassoc.PrimeField
import Nonassoc.Basis

/-!
# Elements of an algebra

An element is a linear combination of basis elements, kept as the list of its nonzero terms with
ascending basis elements. Every operation keeps this form, so that elements are equal as vectors
exactly if they are equal as lists. Main definitions: `Element.get` (the view as a vector),
`Element.set`, `Element.addAt`, `Element.add` and `Element.scale`.
-/

namespace Nonassoc

/-- A linear combination of basis elements: basis elements ascending, no coefficient zero. -/
structure Element where
  terms : List (BasisId × Scalar)
  deriving DecidableEq

namespace Element

/-- The element without terms. -/
def zero : Element := ⟨[]⟩

/-- A basis element. -/
def basis (b : BasisId) : Element := ⟨[(b, 1)]⟩

/-- The coefficient of a basis element. -/
def get (e : Element) (b : BasisId) : Scalar := (e.terms.lookup b).getD 0

/-- Removes the term of a basis element. -/
def erase (b : BasisId) : List (BasisId × Scalar) → List (BasisId × Scalar)
  | [] => []
  | (c, y) :: rest =>
    if b < c then (c, y) :: rest else if b = c then rest else (c, y) :: erase b rest

/-- Gives a basis element a nonzero coefficient. -/
def insert (b : BasisId) (x : Scalar) : List (BasisId × Scalar) → List (BasisId × Scalar)
  | [] => [(b, x)]
  | (c, y) :: rest =>
    if b < c then (b, x) :: (c, y) :: rest
    else if b = c then (b, x) :: rest
    else (c, y) :: insert b x rest

/-- Changes the coefficient of a basis element. -/
def set (e : Element) (b : BasisId) (x : Scalar) : Element :=
  if x = 0 then ⟨erase b e.terms⟩ else ⟨insert b x e.terms⟩

/-- Adds to the coefficient of a basis element. -/
def addAt (f : PrimeField) (e : Element) (b : BasisId) (x : Scalar) : Element :=
  e.set b (f.add (e.get b) x)

/-- The sum of two elements. -/
def add (f : PrimeField) (e d : Element) : Element :=
  d.terms.foldl (fun e (b, x) => e.addAt f b x) e

/-- A multiple of an element. -/
def scale (f : PrimeField) (x : Scalar) (e : Element) : Element :=
  e.terms.foldl (fun d (b, y) => d.set b (f.mul x y)) zero

/-- Whether there is no term. -/
def isZero (e : Element) : Bool := e.terms.isEmpty

/-- The number of terms. -/
def size (e : Element) : Nat := e.terms.length

end Element

end Nonassoc
