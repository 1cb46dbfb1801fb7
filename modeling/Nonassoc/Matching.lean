import Nonassoc.Walk

/-!
# Matchings of occurrences to slots

A matching tells, for every variable, which slot each occurrence reads: one bijection per variable.
Main definitions: `matchings`, all of them in lexicographic order of their slots with the first
variable slowest, starting with the identity; and `matchingCount`, their number, which fails once it
leaves what memory can hold.
-/

namespace Nonassoc

/-- For each variable, the slot of each occurrence. -/
abbrev Matching := List (List Nat)

namespace Matching

/-- The slot that an occurrence of a variable reads. -/
def slot (m : Matching) (v occurrence : Nat) : Except Fault Nat :=
  match (m[v]?).bind (·[occurrence]?) with
  | some k => .ok k
  | none => .error .index

/-- A matching as text: slots joined by commas, variables by bars. -/
def text (m : Matching) : String :=
  String.intercalate "|" (m.map fun slots => String.intercalate "," (slots.map toString))

end Matching

/-! ## Enumeration -/

/-- Every entry of a list, with the list without it. -/
def selections {α : Type} : List α → List (α × List α)
  | [] => []
  | x :: rest => (x, rest) :: (selections rest).map fun (y, others) => (y, x :: others)

/-- The ways to line up `n` entries of a list, in lexicographic order of their places, after the
entries in `taken`, the last of them first; `next` goes on with all of them. -/
def arrangements {α β : Type} (next : List α → Walk β) :
    (n : Nat) → List α → (taken : List α) → Walk β
  | 0, _, taken => next taken.reverse
  | n + 1, l, taken =>
    .choose (selections l) fun (x, others) => arrangements next n others (x :: taken)

/-- The matchings of the remaining variables, after those in `taken`, the last of them first. -/
def matchingsFrom : (degrees : List Nat) → (taken : Matching) → Walk Matching
  | [], taken => .visit taken.reverse
  | d :: rest, taken =>
    arrangements (fun slots => matchingsFrom rest (slots :: taken)) d (List.range d) []

/-- All matchings of variables with the given numbers of occurrences. -/
def matchings (degrees : List Nat) : Walk Matching := matchingsFrom degrees []

/-! ## Number -/

/-- How many matchings memory can hold. It stands for the answer of the allocator when it is asked
for room for all matchings at once; `allMatchings` takes any answer. -/
def matchingCapacity : Nat := 1000000000000

/-- Multiplies `product` by `factor`, `factor + 1` and so on, `n` factors in all; fails as soon as a
product leaves a machine word. -/
def timesFrom? (product factor : Nat) : (n : Nat) → Option Nat
  | 0 => some product
  | n + 1 =>
    if maximalCount < product * factor then none
    else timesFrom? (product * factor) (factor + 1) n

/-- The product of the factorials, if it is a machine word. -/
def factorialProduct? (degrees : List Nat) : Option Nat :=
  degrees.foldlM (fun product d => timesFrom? product 1 d) 1

/-- The number of matchings, which all have to fit in memory. -/
def matchingCount (degrees : List Nat) : Except Failure Nat :=
  match factorialProduct? degrees with
  | none => .error (.exhausted .permutationList)
  | some n => if matchingCapacity < n then .error (.exhausted .permutationList) else .ok n

end Nonassoc
