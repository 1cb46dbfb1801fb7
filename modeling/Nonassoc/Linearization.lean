import Nonassoc.Equation
import Nonassoc.Identity
import Nonassoc.Matching
import Nonassoc.PartialAlgebra
import Nonassoc.Search.Substitution

/-!
# Linearization of an identity

At a substitution, an identity is evaluated once for every matching of the occurrences of its
variables to their slots, and the values are added up. Each term gives the pairs of its two outermost
factors, whose own product is not looked up. Main definitions: `Linearization.ofIdentity`,
`Linearization.evaluate` for one matching, and `Linearization.equation` for all of them, one after
the other in batches. That workers which share a batch find the same equation is shown in
`Nonassoc.Proofs.Workers`.
-/

namespace Nonassoc

open Search (Substitution)

/-- An identity, an algebra to evaluate it in, and the matchings of its occurrences. -/
structure Linearization where
  identity : Identity
  algebra : PartialAlgebra
  matchings : Walk Matching
  count : Nat

namespace Linearization

/-- Prepares an identity for evaluation. All its matchings have to fit in memory. -/
def ofIdentity (identity : Identity) (algebra : PartialAlgebra) : Except Failure Linearization := do
  let count ← matchingCount identity.degrees
  return { identity, algebra, matchings := Nonassoc.matchings identity.degrees, count }

/-- The value of a pattern: a leaf is the basis element in the slot that it reads. -/
def evaluatePattern (a : PartialAlgebra) (s : Substitution) (m : Matching) :
    Pattern → Except Failure Element
  | .leaf v occurrence => do
    let k ← (m.slot v occurrence).mapError .fault
    let b ← (s.slot v k).mapError .fault
    return Element.basis b
  | .product l r => do
    let x ← evaluatePattern a s m l
    let y ← evaluatePattern a s m r
    (a.multiply x y).mapError .algebra

/-- The pairs of a product of two elements, each with `c` times the product of their coefficients. -/
def pairsOf (f : PrimeField) (c : Scalar) (x y : Element) : List Pair :=
  x.terms.flatMap fun (l, a) => y.terms.map fun (r, b) => ⟨f.mul c (f.mul a b), l, r⟩

/-- The pairs of a term: none if its coefficient vanishes in the field. -/
def evaluateTerm (a : PartialAlgebra) (s : Substitution) (m : Matching) (t : Term) :
    Except Failure (List Pair) :=
  match t.pattern with
  | .leaf .. => .ok []
  | .product l r =>
    let c := a.field.ofInt t.coefficient
    if c = 0 then .ok []
    else do
      let x ← evaluatePattern a s m l
      let y ← evaluatePattern a s m r
      return pairsOf a.field c x y

/-- The pairs of all terms under one matching. -/
def evaluate (z : Linearization) (s : Substitution) (m : Matching) : Except Failure (List Pair) := do
  return (← z.identity.terms.mapM (evaluateTerm z.algebra s m)).flatten

/-- The pairs so far, and how many more matchings belong to the batch. -/
structure Sum where
  pairs : Array Pair
  left : Nat

/-- Adds the pairs under one matching. -/
def addMatching (z : Linearization) (s : Substitution) (m : Matching) (t : Token) (sum : Sum) :
    Walk.Run Sum :=
  match z.evaluate s m with
  | .ok more => ⟨.ok (), t, { sum with pairs := sum.pairs ++ more }⟩
  | .error e => ⟨.error e, t, sum⟩

/-- Adds the pairs under one matching, and polls the token if a batch begins with it. A batch has at
least one matching. -/
def visitMatching (z : Linearization) (batchSize : Nat) (s : Substitution) (m : Matching) (t : Token)
    (sum : Sum) : Walk.Run Sum :=
  match sum.left with
  | left + 1 => z.addMatching s m t { sum with left }
  | 0 =>
    match t.poll with
    | (true, t) => z.addMatching s m t { sum with left := batchSize - 1 }
    | (false, t) => ⟨.error .cancelled, t, sum⟩

/-- The equation at a substitution: the pairs of all matchings in order, nothing if there is no
pair. The token is polled before every batch of matchings. -/
def equation (z : Linearization) (batchSize : Nat) (s : Substitution) (t : Token) :
    Except Failure (Option Equation) × Token :=
  let run := z.matchings.forEach (z.visitMatching batchSize s) t ⟨#[], 0⟩
  match run.result with
  | .error e => (.error e, run.token)
  | .ok () =>
    (.ok (if run.state.pairs.isEmpty then none else some ⟨run.state.pairs.toList⟩), run.token)

end Linearization

end Nonassoc
