import Nonassoc.Walk

/-!
# Splitting a target among variables

A split gives every variable a multidegree, all of them adding up to the target, and each of at
least the degree that its variable asks for. The search fills a table with a row per variable and a
column per generator, column by column: in each column every variable but the last takes each value
of what is left there, largest first, and the last one takes the rest. A value is given up as soon
as the degrees that are still missing exceed what is not yet assigned. Main definition: `splits`.
-/

namespace Nonassoc.Search

open Multidegree (Name Table)

/-- What a variable has been given so far, the last column first, its degree, and the degree it has
to reach. -/
structure Share where
  taken : List UInt8
  degree : Nat
  least : Nat

namespace Share

/-- Gives the variable `x` of the next generator. -/
def grow (s : Share) (x : UInt8) : Share :=
  { s with taken := x :: s.taken, degree := s.degree + x.toNat }

/-- How much the variable still misses. -/
def missing (s : Share) : Nat := s.least - s.degree

/-- What the variable was given. -/
def multidegree (s : Share) : Multidegree := ⟨s.taken.reverse⟩

end Share

/-- How the totals of a search stand: what is left of the whole target, and how much all variables
together still miss. -/
structure Balance where
  unassigned : Nat
  missing : Nat

namespace Balance

/-- The totals after a variable was given `x`, if that much was left. -/
def give? (b : Balance) (share : Share) (x : UInt8) : Option Balance :=
  if b.unassigned < x.toNat then none
  else
    some {
      unassigned := b.unassigned - x.toNat
      missing := b.missing - (share.missing - (share.grow x).missing) }

end Balance

/-- Whether a search may go on after `grown` was given a value: there is enough left for all that is
missing, and nothing is missing where the last column is filled. -/
def feasible (lastColumn : Bool) (grown : Share) (b : Balance) : Bool :=
  !(lastColumn && grown.degree < grown.least) && b.missing ≤ b.unassigned

/-- Fills the rest of a column that holds `bound` of its generator. The variables in `before`, the
last of them first, have taken `used` of it; `next` goes on with a column that is full. -/
def fillColumn {α : Type} (lastColumn : Bool) (bound : UInt8)
    (next : List Share → Balance → Walk α) :
    List Share → (used : UInt8) → Balance → (before : List Share) → Walk α
  | [], _, _, _ => .done
  | share :: rest, used, balance, before =>
    .poll fun _ =>
      match subByte? bound used with
      | none => .fail (.fault .arithmetic)
      | some left =>
        let least := if rest.isEmpty then left.toNat else 0
        .chooseFrom 0 (left.toNat + 1 - least) fun i =>
          let x := left - UInt8.ofNat i
          let grown := share.grow x
          match balance.give? share x with
          | none => .fail (.fault .arithmetic)
          | some balance =>
            if feasible lastColumn grown balance then
              if rest.isEmpty then next (grown :: before).reverse balance
              else
                match addByte? used x with
                | none => .fail (.fault .arithmetic)
                | some used => fillColumn lastColumn bound next rest used balance (grown :: before)
            else .done

/-- Fills the columns of the given generators; `next` goes on with a table that is full. -/
def fillColumns {α : Type} (next : List Share → Walk α) :
    List UInt8 → List Share → Balance → Walk α
  | [], shares, _ => .poll fun _ => next shares
  | bound :: rest, shares, balance =>
    fillColumn rest.isEmpty bound (fillColumns next rest) shares 0 balance []

/-- The names of what the variables were given. -/
def shareNames (t : Table) (shares : List Share) : Except MultidegreeError (List Name) :=
  shares.mapM fun s =>
    match t.name? s.multidegree with
    | some n => .ok n
    | none => .error (.notInTable s.multidegree)

/-- The splits of a target among variables that ask for the degrees in `least`. Without variables,
or if they ask for too much, there is none, and nothing is polled. -/
def splits (t : Table) (target : Name) (least : List Nat) : Walk (List Name) :=
  .attempt .fault (t.entry target) fun m =>
    if least.isEmpty || m.degree < total least then .done
    else
      fillColumns (fun shares => .attempt .multidegree (shareNames t shares) .visit)
        m.components (least.map fun d => ⟨[], 0, d⟩) ⟨m.degree, total least⟩

/-- A split as text, `(1,0)+(0,1)`. -/
def splitText (t : Table) (split : List Name) : Except Fault String := do
  return String.intercalate "+" ((← split.mapM t.entry).map Multidegree.text)

end Nonassoc.Search
