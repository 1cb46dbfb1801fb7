import Nonassoc.Search.Partition
import Nonassoc.Basis

/-!
# Substitutions

A substitution puts a basis element into every slot of a partition, of the multidegree that the slot
has there. The search fills the slots row by row; the last slot of the last variable varies fastest.
Main definition: `substitutions`.
-/

namespace Nonassoc.Search

open Multidegree (Name)

/-- For each variable, the basis element in each of its slots. -/
abbrev Substitution := List (List BasisId)

namespace Substitution

/-- The basis element in a slot of a variable. -/
def slot (s : Substitution) (v k : Nat) : Except Fault BasisId :=
  match (s[v]?).bind (·[k]?) with
  | some b => .ok b
  | none => .error .index

/-- The rows as text, `[b3] [b0, b1]`. -/
def text (s : Substitution) : String :=
  String.intercalate " "
    (s.map fun row => "[" ++ String.intercalate ", " (row.map BasisId.text) ++ "]")

end Substitution

/-- The ways to fill the remaining slots of one variable. The element in the last slot before them
stands first in `taken`; `next` goes on with the whole row. -/
def fillRow {α : Type} (b : Basis) (next : List BasisId → Walk α) :
    List Name → (taken : List BasisId) → Walk α
  | [], taken => .poll fun _ => next taken.reverse
  | name :: rest, taken =>
    .poll fun _ =>
      let (first, past) := b.block name
      .chooseFrom first (past - first) fun x => fillRow b next rest (x :: taken)

/-- The ways to fill the remaining rows, after those in `taken`, the last of them first. -/
def fillRows (b : Basis) : Partition → (taken : Substitution) → Walk Substitution
  | [], taken => .poll fun _ => .visit taken.reverse
  | names :: rest, taken => fillRow b (fun row => fillRows b rest (row :: taken)) names []

/-- The substitutions of a partition. -/
def substitutions (b : Basis) (p : Partition) : Walk Substitution := fillRows b p []

end Nonassoc.Search
