import Std.Data.HashMap
import Nonassoc.Word
import Nonassoc.Coefficient

/-!
# Integer combinations of words

A combination is a list of terms, coefficient and word, that may repeat words. Its operations fail
(`none`) exactly when a coefficient leaves the machine range:

* `scale?` and `mul?` work term by term and merge nothing;
* `merge?` collects like words at their first appearance and drops what cancels.
-/

namespace Nonassoc

/-- A sum of integer multiples of words, in order, words possibly repeated. -/
abbrev Combination := List (Int × Word)

namespace Combination

/-- The combination itself, if all its coefficients fit. -/
def fit? (p : Combination) : Option Combination :=
  p.mapM fun (c, w) => (Coefficient.fit? c).map (·, w)

/-- Multiplies every coefficient by `c`. -/
def scale? (c : Int) (p : Combination) : Option Combination :=
  fit? (p.map fun (x, w) => (x * c, w))

/-- The bilinear product, left factors slowest. -/
def mul? (p q : Combination) : Option Combination :=
  fit? (p.flatMap fun (x, u) => q.map fun (y, v) => (x * y, u.product v))

/-- The left-normed power with exponent `k + 1`. -/
def power? (p : Combination) : Nat → Option Combination
  | 0 => some p
  | k + 1 => do (← power? p k).mul? p

/-- The Jordan product `ab + ba`. -/
def jordan? (a b : Combination) : Option Combination := do
  return (← a.mul? b) ++ (← b.mul? a)

/-- The commutator `ab - ba`. -/
def commutator? (a b : Combination) : Option Combination := do
  return (← a.mul? b) ++ (← (← b.mul? a).scale? (-1))

/-- The associator `(ab)c - a(bc)`. -/
def associator? (a b c : Combination) : Option Combination := do
  return (← (← a.mul? b).mul? c) ++ (← (← a.mul? (← b.mul? c)).scale? (-1))

/-! ## Like words -/

/-- Terms with distinct words, and the position of each word among them. -/
structure Collected where
  place : Std.HashMap Word Nat
  terms : Array (Int × Word)

/-- Adds a term: to the like word if there is one, at the end otherwise. -/
def Collected.add? (s : Collected) (t : Int × Word) : Option Collected :=
  match s.place[t.2]? with
  | none => some ⟨s.place.insert t.2 s.terms.size, s.terms.push t⟩
  | some i => do
    let c ← Coefficient.fit? ((s.terms[i]?.getD (0, t.2)).1 + t.1)
    some { s with terms := s.terms.setIfInBounds i (c, t.2) }

/-- Each word once, where it first appears, with its total; words with total zero are dropped.
Fails if a partial sum does not fit. -/
def merge? (p : Combination) : Option Combination := do
  let s ← p.foldlM Collected.add? ⟨∅, #[]⟩
  return s.terms.toList.filter (·.1 ≠ 0)

end Combination

end Nonassoc
