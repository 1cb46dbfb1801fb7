import Nonassoc.Linearization
import Nonassoc.Search.Split

/-!
# Generating equations

What identities demand of the products of a target multidegree: for every split of the target among
the variables, every partition of the split and every substitution of the partition, the equation of
the linearized identity. Main definitions: `generate` for one identity and `generateAll` for several
with one token. A cancelled run keeps the equations of the splits that it finished; a failed one
keeps none.

Runs are sequential: the matchings of a batch are evaluated one after the other. A number of workers
is no part of `Config`, and that workers cannot be started is no way for a run to fail.
`Nonassoc.Proofs.Workers` treats batches that workers share.
-/

namespace Nonassoc

open Multidegree (Name)
open Search (Partition Substitution splits partitions substitutions)
open Walk (Run)

/-! ## Counting -/

/-- What a run went through and what it found. -/
structure Stats where
  subtypes : Nat
  partitions : Nat
  substitutions : Nat
  permutations : Nat
  equations : Nat
  basisPairs : Nat
  deriving DecidableEq

namespace Stats

/-- Nothing so far. -/
def zero : Stats := ⟨0, 0, 0, 0, 0, 0⟩

/-- The sums of all counts. -/
def add (a b : Stats) : Stats where
  subtypes := a.subtypes + b.subtypes
  partitions := a.partitions + b.partitions
  substitutions := a.substitutions + b.substitutions
  permutations := a.permutations + b.permutations
  equations := a.equations + b.equations
  basisPairs := a.basisPairs + b.basisPairs

/-- The counts in a fixed order. -/
def toList (s : Stats) : List Nat :=
  [s.subtypes, s.partitions, s.substitutions, s.permutations, s.equations, s.basisPairs]

/-- The counts as text. -/
def text (s : Stats) : String :=
  toString s.subtypes ++ " subtypes, " ++ toString s.partitions ++ " partitions, " ++
    toString s.substitutions ++ " substitutions, " ++ toString s.permutations ++
    " permutations, " ++ toString s.equations ++ " equations, " ++ toString s.basisPairs ++
    " basis pairs"

end Stats

/-! ## One identity -/

/-- What a run has found so far; `completed` equations belong to finished splits. -/
structure Progress where
  equations : Array Equation
  stats : Stats
  completed : Nat

namespace Progress

/-- The start of a run. -/
def start : Progress := ⟨#[], .zero, 0⟩

/-- Counts a split. -/
def countSplit (p : Progress) : Progress :=
  { p with stats := { p.stats with subtypes := p.stats.subtypes + 1 } }

/-- Counts a partition. -/
def countPartition (p : Progress) : Progress :=
  { p with stats := { p.stats with partitions := p.stats.partitions + 1 } }

/-- Counts a substitution. -/
def countSubstitution (p : Progress) : Progress :=
  { p with stats := { p.stats with substitutions := p.stats.substitutions + 1 } }

/-- Records the equation of a substitution, if there is one, that took `count` matchings. -/
def record (p : Progress) (count : Nat) (e : Option Equation) : Progress :=
  { p with
    stats := { p.stats with permutations := p.stats.permutations + count }
    equations := match e with
      | some e => p.equations.push e
      | none => p.equations }

/-- Marks all equations so far as belonging to finished splits. -/
def complete (p : Progress) : Progress := { p with completed := p.equations.size }

end Progress

namespace Linearization

/-- Linearizes at one substitution. -/
def visitSubstitution (z : Linearization) (batchSize : Nat) (s : Substitution) (t : Token)
    (p : Progress) : Run Progress :=
  let p := p.countSubstitution
  match z.equation batchSize s t with
  | (.ok e, t) => ⟨.ok (), t, p.record z.count e⟩
  | (.error e, t) => ⟨.error e, t, p⟩

/-- Goes through the substitutions of a partition. -/
def visitPartition (z : Linearization) (batchSize : Nat) (partition : Partition) (t : Token)
    (p : Progress) : Run Progress :=
  (substitutions z.algebra.basis partition).forEach (z.visitSubstitution batchSize) t
    p.countPartition

/-- Goes through the partitions of a split, and marks it as finished. -/
def visitSplit (z : Linearization) (batchSize : Nat) (split : List Name) (t : Token)
    (p : Progress) : Run Progress :=
  let run := (partitions z.algebra.table split z.identity.degrees).forEach
    (z.visitPartition batchSize) t p.countSplit
  match run.result with
  | .ok () => { run with state := run.state.complete }
  | .error _ => run

/-- Goes through the splits of the target. -/
def visitTarget (z : Linearization) (batchSize : Nat) (target : Name) (t : Token) : Run Progress :=
  (splits z.algebra.table target z.identity.degrees).forEach (z.visitSplit batchSize) t .start

end Linearization

/-! ## Outcomes -/

/-- How a run ended: with equations, without any because nothing applied, or early. -/
inductive Status where
  | complete
  | empty
  | cancelled
  | failed (e : Failure)
  deriving DecidableEq

/-- What a run returns. -/
structure Outcome where
  status : Status
  equations : List Equation
  stats : Stats

namespace Outcome

/-- The outcome with the given equations and with their numbers in the counts. -/
def ofEquations (status : Status) (equations : List Equation) (stats : Stats) : Outcome where
  status
  equations
  stats := { stats with
    equations := equations.length
    basisPairs := total (equations.map Equation.size) }

/-- The outcome of a run with the given result. A failure keeps no equation. -/
def ofResult (result : Except Failure Unit) (equations : List Equation) (stats : Stats) : Outcome :=
  match result with
  | .ok () => ofEquations (if equations.isEmpty then .empty else .complete) equations stats
  | .error .cancelled => ofEquations .cancelled equations stats
  | .error e => ofEquations (.failed e) [] stats

end Outcome

/-- The equations that a run keeps: when it is cancelled, those of finished splits. -/
def keptEquations (run : Run Progress) : List Equation :=
  match run.result with
  | .error .cancelled => run.state.equations.toList.take run.state.completed
  | _ => run.state.equations.toList

/-- How matchings are evaluated: so many between two polls, one after the other. -/
structure Config where
  batchSize : Nat

/-- The batch size that is used if none is given. -/
def Config.standard : Config := ⟨64⟩

/-- All equations that an identity imposes on products of the target. -/
def generate (identity : Identity) (target : Name) (a : PartialAlgebra) (config : Config)
    (t : Token) : Outcome × Token :=
  if !a.table.contains target then (.ofResult (.error (.unknownTarget target)) [] .zero, t)
  else
    match Linearization.ofIdentity identity a with
    | .error e => (.ofResult (.error e) [] .zero, t)
    | .ok z =>
      let run := z.visitTarget config.batchSize target t
      (.ofResult run.result (keptEquations run) run.state.stats, run.token)

/-! ## Several identities -/

/-- Generates for one identity after the other, in addition to what was found before. Stops at the
first one that is cancelled or fails, and keeps what the earlier ones gave. -/
def generateFrom (target : Name) (a : PartialAlgebra) (config : Config) :
    List Identity → Token → Array Equation → Stats → Outcome × Token
  | [], t, equations, stats => (.ofResult (.ok ()) equations.toList stats, t)
  | identity :: rest, t, equations, stats =>
    let (outcome, t) := generate identity target a config t
    let equations := equations ++ outcome.equations
    let stats := stats.add outcome.stats
    match outcome.status with
    | .complete | .empty => generateFrom target a config rest t equations stats
    | status => ({ status, equations := equations.toList, stats }, t)

/-- All equations that the identities impose on products of the target. Those of a degree above the
target's impose none and are passed over. -/
def generateAll (identities : List Identity) (target : Name) (a : PartialAlgebra) (config : Config)
    (t : Token) : Outcome × Token :=
  match a.table.degree target with
  | .error _ => (.ofResult (.error (.unknownTarget target)) [] .zero, t)
  | .ok d => generateFrom target a config (identities.filter (·.degree ≤ d)) t #[] .zero

end Nonassoc
