import Std.Data.HashMap
import Nonassoc.Multidegree
import Nonassoc.Text.Quoted

/-!
# Tables of multidegrees

The table of a target multidegree lists everything that is component by component at most the
target: first by degree, then lexicographically. A place in this list is a *name*. So a name of
smaller degree is always smaller than a name of greater degree, and the names of one degree are a
block of consecutive numbers.

Main definitions: `Multidegree.below` (the list), `Table` with its look-ups in both directions, and
`Table.add` and `Table.subtract` on names. A look-up by a name that is not in the table is a
`Fault.index`.
-/

namespace Nonassoc

/-- The wording of an error. -/
def MultidegreeError.message : MultidegreeError → String
  | .noGenerators => "a type needs at least one generator"
  | .unreadable text =>
    "cannot parse type " ++ Text.quoteString text ++ ", expected something like 3,2,1"
  | .notInTable t => "type " ++ t.text ++ " is not a subtype of the target"

namespace Multidegree

/-- How a multidegree is called in a table: its place there. -/
abbrev Name := Nat

/-- The name as text. -/
def Name.text (n : Name) : String := "n" ++ toString n

/-! ## Enumeration -/

/-- Every bound with the sum of the bounds after it. -/
def withRoom : List UInt8 → List (UInt8 × Nat)
  | [] => []
  | bound :: rest =>
    match withRoom rest with
    | [] => [(bound, 0)]
    | (next, room) :: more => (bound, next.toNat + room) :: (next, room) :: more

/-- The values of an entry with the given bound if the entries from it on have the sum `d`: at least
what those after it have no room for. -/
def entryValues (bound : UInt8) (room d : Nat) : List Nat :=
  List.range' (d - room) (min bound.toNat d + 1 - (d - room))

/-- The lists with sum `d` whose entries are at most the bounds, lexicographically, each behind the
entries in `taken`, the last of them first; `after` stands behind them all. -/
def withSumBefore : (bounds : List (UInt8 × Nat)) → (d : Nat) → (taken : List UInt8) →
    (after : List (List UInt8)) → List (List UInt8)
  | bounds, 0, taken, after => (taken.reverse ++ bounds.map fun _ => 0) :: after
  | [], _ + 1, _, after => after
  | (bound, room) :: rest, d + 1, taken, after =>
    (entryValues bound room (d + 1)).foldr
      (fun x after => withSumBefore rest (d + 1 - x) (UInt8.ofNat x :: taken) after) after

/-- The lists with sum `d` whose entries are at most the bounds, lexicographically. -/
def withSum (bounds : List (UInt8 × Nat)) (d : Nat) : List (List UInt8) :=
  withSumBefore bounds d [] []

theorem withSumBefore_eq (bounds : List (UInt8 × Nat)) (d : Nat) (taken : List UInt8)
    (after : List (List UInt8)) :
    withSumBefore bounds d taken after =
      (withSum bounds d).map (taken.reverse ++ ·) ++ after := by
  induction bounds generalizing d taken after with
  | nil => cases d <;> simp [withSum, withSumBefore]
  | cons b rest ih =>
    obtain ⟨bound, room⟩ := b
    cases d with
    | zero => simp [withSum, withSumBefore]
    | succ d =>
      simp only [withSum, withSumBefore]
      induction entryValues bound room (d + 1) with
      | nil => simp
      | cons x xs ihx =>
        simp only [List.foldr_cons]
        rw [ih, ih (d + 1 - x) [UInt8.ofNat x], ihx]
        simp [Function.comp_def]

theorem withSum_zero (bounds : List (UInt8 × Nat)) : withSum bounds 0 = [bounds.map fun _ => 0] := by
  cases bounds <;> simp [withSum, withSumBefore]

/-- The first entry takes its values in turn. -/
theorem withSum_cons_succ (bound : UInt8) (room d : Nat) (rest : List (UInt8 × Nat)) :
    withSum ((bound, room) :: rest) (d + 1) =
      (entryValues bound room (d + 1)).flatMap fun x =>
        (withSum rest (d + 1 - x)).map (UInt8.ofNat x :: ·) := by
  simp only [withSum, withSumBefore]
  induction entryValues bound room (d + 1) with
  | nil => rfl
  | cons x xs ih =>
    rw [List.foldr_cons, withSumBefore_eq, ih]
    simp [withSum]

/-- Everything that is at most `target`: for each degree, lexicographically. -/
def levels (target : Multidegree) : List (List Multidegree) :=
  let bounds := withRoom target.components
  (List.range (target.degree + 1)).map fun d => (withSum bounds d).map mk

/-- Everything that is at most `target`, by degree and then lexicographically. -/
def below (target : Multidegree) : List Multidegree := target.levels.flatten

/-- The places that lists of the given lengths take when they are joined: the first place of each and
the first place after it. -/
def blocksFrom (first : Nat) : List Nat → List (Nat × Nat)
  | [] => []
  | n :: rest => (first, first + n) :: blocksFrom (first + n) rest

/-- The block of names of each degree. -/
def blocks (target : Multidegree) : List (Nat × Nat) :=
  blocksFrom 0 (target.levels.map List.length)

/-! ## Tables -/

/-- A target with the list below it, the degree and the place of each entry, and the block of each
degree. -/
structure Table where
  target : Multidegree
  generators_pos : 0 < target.generators
  entries : Array Multidegree
  entries_eq : entries = target.below.toArray
  degrees : Array Nat
  degrees_eq : degrees = (target.below.map Multidegree.degree).toArray
  places : Std.HashMap Multidegree Name
  places_eq : places = Std.HashMap.ofList target.below.zipIdx
  ranges : Array (Nat × Nat)
  ranges_eq : ranges = target.blocks.toArray

namespace Table

/-- The table of a target, which needs a generator. -/
def ofTarget (target : Multidegree) : Except MultidegreeError Table :=
  if h : 0 < target.generators then
    let levels := target.levels
    let entries := levels.flatten
    .ok {
      target
      generators_pos := h
      entries := entries.toArray
      entries_eq := rfl
      degrees := (entries.map Multidegree.degree).toArray
      degrees_eq := rfl
      places := Std.HashMap.ofList entries.zipIdx
      places_eq := rfl
      ranges := (blocksFrom 0 (levels.map List.length)).toArray
      ranges_eq := rfl }
  else .error .noGenerators

/-- The number of names. -/
def size (t : Table) : Nat := t.entries.size

/-- The name of the target, the last one. -/
def targetName (t : Table) : Name := t.size - 1

/-- Whether the name is in the table. -/
def contains (t : Table) (n : Name) : Bool := n < t.size

/-- The multidegree of a name. -/
def entry (t : Table) (n : Name) : Except Fault Multidegree :=
  match t.entries[n]? with
  | some m => .ok m
  | none => .error .index

/-- The name of a multidegree, if it is below the target. -/
def name? (t : Table) (m : Multidegree) : Option Name := t.places[m]?

/-- The degree of a name. -/
def degree (t : Table) (n : Name) : Except Fault Nat :=
  match t.degrees[n]? with
  | some d => .ok d
  | none => .error .index

/-- Whether `a` is component by component at most `b`. -/
def le (t : Table) (a b : Name) : Except Fault Bool := do
  return (← t.entry a).le (← t.entry b)

/-- The name of `a - b`, if `b` is at most `a`. -/
def subtract (t : Table) (a b : Name) : Except Fault (Option Name) := do
  return ((← t.entry a).sub? (← t.entry b)).bind t.name?

/-- The name of `a + b`, if that is still below the target. -/
def add (t : Table) (a b : Name) : Except Fault (Option Name) := do
  return ((← t.entry a).add? (← t.entry b)).bind t.name?

/-! ## Names of one degree -/

/-- The names of degree `d`, ascending; there are none above the degree of the target. -/
def ofDegree (t : Table) (d : Nat) : List Name :=
  match t.ranges[d]? with
  | some (first, past) => List.range' first (past - first)
  | none => []

/-- The first name of degree `least` and the first name after those of degree `most`; nothing lies
between them unless both are degrees of names. -/
def span (t : Table) (least most : Nat) : Nat × Nat :=
  match t.ranges[least]?, t.ranges[most]? with
  | some (first, _), some (_, past) => (first, past)
  | _, _ => (0, 0)

/-- The smallest name of degree `d`. -/
def firstOfDegree? (t : Table) (d : Nat) : Option Name :=
  match t.ranges[d]? with
  | some (first, past) => if first < past then some first else none
  | none => none

/-- The name after `n`, if it has the same degree. A number that is not a name has none; for the
largest machine word, which nothing comes after, that is a fault. -/
def nextOfDegree? (t : Table) (n : Name) : Except Fault (Option Name) :=
  match t.degrees[n]?, t.degrees[n + 1]? with
  | some d, some e => .ok (if e = d then some (n + 1) else none)
  | some _, none => .ok none
  | none, _ => if n < maximalCount then .ok none else .error .arithmetic

/-- All names, ascending. -/
def names (t : Table) : List Name := List.range t.size

end Table

end Multidegree

end Nonassoc
