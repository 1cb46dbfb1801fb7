import Nonassoc.Walk

/-!
# Partitions

A partition divides the multidegree of every variable into as many parts as the variable has
occurrences, one part for each slot. The parts of a variable have positive degree and do not
increase, so that each multiset of parts comes once. The search divides one variable after the
other; a part is followed by parts of at most its own name, and names grow with the degree, so the
first of `count` parts has a degree from `⌈n / count⌉` to `n - count + 1`. Main definitions:
`partitions`, and `reservedPartitions` for degrees that may be any machine words.
-/

namespace Nonassoc.Search

open Multidegree (Name Table)

/-- For each variable, the multidegree of each of its slots. -/
abbrev Partition := List (List Name)

namespace Partition

/-- No part of a variable is greater than the one before it. -/
def isDescending : List Name → Bool
  | a :: b :: rest => b ≤ a && isDescending (b :: rest)
  | _ => true

/-- The parts of every variable do not increase. -/
def isCanonical (p : Partition) : Bool := p.all isDescending

/-- A partition as text, `(1,1) (1,0) | (0,1)`. -/
def text (t : Table) (p : Partition) : Except Fault String := do
  let rows ← p.mapM fun parts => parts.mapM t.entry
  return String.intercalate " | "
    (rows.map fun row => String.intercalate " " (row.map Multidegree.text))

end Partition

/-- Whether a name is at most the bound, if there is one. -/
def withinBound (bound : Option Name) (n : Name) : Bool :=
  match bound with
  | some b => n ≤ b
  | none => true

/-- The names that the first of `count` parts of something of degree `n` may have: the smallest one
and how many there are. They are consecutive, and the bound cuts them off. -/
def firstParts (t : Table) (n count : Nat) (bound : Option Name) : Nat × Nat :=
  let (first, past) := t.span ((n + count - 1) / count) (n + 1 - count)
  match bound with
  | some b => (first, min past (b + 1) - first)
  | none => (first, past - first)

/-- The ways to divide `residual` into the given number of parts, none of them above the bound. The
last of the parts that come before them stands first in `taken`; `next` goes on with all parts. -/
def partsOf {α : Type} (t : Table) (next : List Name → Walk α) :
    (count : Nat) → (residual : Name) → (bound : Option Name) → (taken : List Name) → Walk α
  | 0, residual, _, _ => .poll fun _ => .attempt .fault (t.degree residual) fun _ => .done
  | 1, residual, bound, taken =>
    .poll fun _ => .attempt .fault (t.degree residual) fun n =>
      if n < 1 then .done
      else if withinBound bound residual then next (residual :: taken).reverse
      else .done
  | count + 2, residual, bound, taken =>
    .poll fun _ => .attempt .fault (t.degree residual) fun n =>
      if n < count + 2 then .done
      else
        let (first, number) := firstParts t n (count + 2) bound
        .chooseFrom first number fun part =>
          .attempt .fault (t.subtract residual part) fun
            | none => .done
            | some rest => partsOf t next (count + 1) rest (some part) (part :: taken)

/-- The ways to divide all the given multidegrees, each into its number of parts, after those in
`taken`, the last of them first. -/
def partsOfAll (t : Table) : List (Name × Nat) → (taken : Partition) → Walk Partition
  | [], taken => .visit taken.reverse
  | (n, count) :: rest, taken =>
    partsOf t (fun parts => partsOfAll t rest (parts :: taken)) count n none []

/-- The partitions of a split, variable `v` in `degrees[v]` parts. Without variables there is none,
and nothing is polled. -/
def partitions (t : Table) (split : List Name) (degrees : List Nat) : Walk Partition :=
  if split.length ≠ degrees.length then .fail (.fault .lengths)
  else if split.isEmpty then .done
  else (partsOfAll t (split.zip degrees) []).filter Partition.isCanonical

/-- The partitions with room for all parts set aside before the search: whatever the split, it is a
fault to ask for more parts of one variable than a list can hold. The degrees of an identity never
do, since they count occurrences in a word. -/
def reservedPartitions (t : Table) (split : List Name) (degrees : List Nat) : Walk Partition :=
  if degrees.all (· ≤ wordCapacity) then partitions t split degrees else .fail (.fault .memory)

theorem reservedPartitions_eq {t : Table} {split : List Name} {degrees : List Nat}
    (h : ∀ d ∈ degrees, d ≤ wordCapacity) :
    reservedPartitions t split degrees = partitions t split degrees := by
  have : degrees.all (· ≤ wordCapacity) = true := by simpa using h
  rw [reservedPartitions, if_pos this]

end Nonassoc.Search
