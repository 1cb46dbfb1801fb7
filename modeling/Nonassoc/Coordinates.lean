import Nonassoc.Basis

/-!
# Integer coordinates

One machine integer for every basis element of a beginning of the basis. Sums and doubles wrap at 64
bits. A look-up by a number without a coordinate is a `Fault.index`, and more coordinates than a list
can hold are a `Fault.memory`.
-/

namespace Nonassoc

/-- The coordinate of each basis element, in order. -/
structure Coordinates where
  values : Array Int64

namespace Coordinates

/-- The number of coordinates. -/
def size (c : Coordinates) : Nat := c.values.size

/-- The basis elements that have a coordinate. -/
def ids (c : Coordinates) : List BasisId := List.range c.size

/-- Every basis element with its coordinate. -/
def toList (c : Coordinates) : List (BasisId × Int64) := c.ids.zip c.values.toList

/-- Gives the next basis element a coordinate. -/
def push (c : Coordinates) (x : Int64) : BasisId × Coordinates :=
  (c.size, ⟨c.values.push x⟩)

/-- The coordinate of a basis element. -/
def get (c : Coordinates) (b : BasisId) : Except Fault Int64 :=
  match c.values[b]? with
  | some x => .ok x
  | none => .error .index

/-- Changes the coordinate of a basis element. -/
def set (c : Coordinates) (b : BasisId) (x : Int64) : Except Fault Coordinates :=
  if b < c.size then .ok ⟨c.values.setIfInBounds b x⟩ else .error .index

/-- The same coordinate for the first `n` basis elements, each of which takes a word. -/
def replicate (n : Nat) (x : Int64) : Except Fault Coordinates :=
  if wordCapacity < n then .error .memory else .ok ⟨Array.replicate n x⟩

/-- The coordinates doubled, modulo the machine word. -/
def double (c : Coordinates) : Coordinates := ⟨c.values.map fun x => x + x⟩

/-- The sum of the coordinates, modulo the machine word. -/
def sum (c : Coordinates) : Int64 := c.values.foldl (fun s x => s + x) 0

/-- The coordinates as text: the elements of `toList` between braces, as in `b0: 5, b1: -6`. -/
def text (c : Coordinates) : String :=
  "\x7b" ++ String.intercalate ", "
    (c.toList.map fun (b, x) => b.text ++ ": " ++ toString x.toInt) ++ "\x7d"

end Coordinates

end Nonassoc
