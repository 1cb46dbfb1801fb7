import Nonassoc.Multidegree.Table

/-!
# The basis of a partially known algebra

Basis elements are entered one after the other and called by their place (`BasisId`). Each is a
generator or a product of two earlier elements, and has a multidegree. All elements of one
multidegree are entered without a break, so they are a block of consecutive numbers.

Main definitions: `Basis.push`, `Basis.pushAllGenerators` and the look-ups by multidegree. A look-up
by a number that is not in the basis is a `Fault.index`.
-/

namespace Nonassoc

open Multidegree (Name Table)

/-- How a basis element is called: its place in the basis. -/
abbrev BasisId := Nat

/-- The basis element as text. -/
def BasisId.text (b : BasisId) : String := "b" ++ toString b

/-- Why an element cannot be entered. -/
inductive BasisError where
  | notContiguous (name : Name)
  | unknownName (name : Name)
  | unknownFactor (factor : BasisId)
  deriving DecidableEq

/-- The wording of an error. -/
def BasisError.message : BasisError → String
  | notContiguous name =>
    "basis elements of type " ++ name.text ++ " must be entered contiguously"
  | unknownName name => "type " ++ name.text ++ " is not in the type table"
  | unknownFactor factor => "factor " ++ factor.text ++ " is not a basis element"

/-- A basis element: the factors of a product, none for a generator, and its multidegree. -/
structure BasisEntry where
  factors : Option (BasisId × BasisId)
  name : Name
  deriving DecidableEq

/-- The elements in order of entry, and for each multidegree the first place and the first place
after its elements. -/
structure Basis where
  entries : Array BasisEntry
  blocks : Array (Nat × Nat)

namespace Basis

/-- The basis without elements, over the names of a table. -/
def empty (t : Table) : Basis := ⟨#[], Array.replicate t.size (0, 0)⟩

/-- The number of elements. -/
def size (b : Basis) : Nat := b.entries.size

/-- Whether there is an element of that number. -/
def contains (b : Basis) (x : BasisId) : Bool := x < b.size

/-- The first factor that is not in the basis. -/
def strangeFactor? (b : Basis) : Option (BasisId × BasisId) → Option BasisId
  | none => none
  | some (l, r) => if !b.contains l then some l else if !b.contains r then some r else none

/-- Enters an element. Its multidegree has to be in the table, its factors in the basis, and no
element of another multidegree may stand between it and the last one of its own. -/
def push (b : Basis) (factors : Option (BasisId × BasisId)) (name : Name) :
    Except BasisError Basis :=
  match b.blocks[name]? with
  | none => .error (.unknownName name)
  | some (first, past) =>
    match b.strangeFactor? factors with
    | some x => .error (.unknownFactor x)
    | none =>
      let next := b.size
      if first < past && past != next then .error (.notContiguous name)
      else
        .ok {
          entries := b.entries.push ⟨factors, name⟩
          blocks := b.blocks.setIfInBounds name
            (if first < past then first else next, next + 1) }

/-- Enters the given generators one after the other, as far as possible; what was entered before a
failure stays. -/
def pushGenerators (t : Table) : List Nat → Basis → Option BasisError × Basis
  | [], b => (none, b)
  | g :: rest, b =>
    match (Multidegree.unit t.target.generators g).toOption.bind t.name? with
    | none => pushGenerators t rest b
    | some name =>
      match b.push none name with
      | .error e => (some e, b)
      | .ok b => pushGenerators t rest b

/-- Enters the generators that are below the target, in order. -/
def pushAllGenerators (b : Basis) (t : Table) : Option BasisError × Basis :=
  pushGenerators t t.target.support b

/-! ## Look-ups -/

/-- The entry of an element. -/
def entry (b : Basis) (x : BasisId) : Except Fault BasisEntry :=
  match b.entries[x]? with
  | some e => .ok e
  | none => .error .index

/-- The multidegree of an element. -/
def nameOf (b : Basis) (x : BasisId) : Except Fault Name := do
  return (← b.entry x).name

/-- The factors of an element, none for a generator. -/
def factors (b : Basis) (x : BasisId) : Except Fault (Option (BasisId × BasisId)) := do
  return (← b.entry x).factors

/-- The first place of a multidegree and the first place after its elements; they are the same if it
has no element, or if there is no such name in the table. -/
def block (b : Basis) (name : Name) : Nat × Nat := b.blocks[name]?.getD (0, 0)

/-- The elements of a multidegree, ascending. -/
def ofName (b : Basis) (name : Name) : List BasisId :=
  let (first, past) := b.block name
  List.range' first (past - first)

/-- The number of elements of a multidegree. -/
def countOfName (b : Basis) (name : Name) : Nat :=
  let (first, past) := b.block name
  past - first

/-- The first element of a multidegree. -/
def firstOfName? (b : Basis) (name : Name) : Option BasisId :=
  let (first, past) := b.block name
  if first < past then some first else none

/-- The element after `x`, if it has the same multidegree. -/
def nextOfName? (b : Basis) (x : BasisId) : Except Fault (Option BasisId) := do
  match b.blocks[← b.nameOf x]? with
  | some (_, past) => return if x + 1 < past then some (x + 1) else none
  | none => throw .index

end Basis

end Nonassoc
