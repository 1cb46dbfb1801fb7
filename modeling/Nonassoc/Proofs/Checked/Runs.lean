import Nonassoc.Proofs.Charges
import Nonassoc.Proofs.Checked.Partitions
import Nonassoc.Proofs.Checked.Splits
import Nonassoc.Proofs.Checked.Substitutions
import Nonassoc.Proofs.Lookups

/-!
# Runs in memory

`Checked.generate` and `Checked.generateAll` generate equations with the searches on memory, one
inside the other, and read the elements for the leaves of a term from the cells of a substitution. If
what they are given fits in memory (`InMemory`), they are `Nonassoc.generate` and
`Nonassoc.generateAll` (`Checked.generate_eq`, `Checked.generateAll_eq`): no index is outside its list
and no sum leaves its byte or word. So a run ends early only if the token is cancelled, or for one of
the reasons in `Failure.IsOrdinary`, none of which is a fault (`generate_checked`). Scalars need no
check: a run only adds and multiplies bytes, which takes sixteen bits.

The counts in `Stats` are unbounded numbers, here as in a run. A budget of polls bounds the visits
that a run counts (`generate_checked`); for an unlimited token the counts are taken to stay machine
words, and nothing here shows that they do.
-/

namespace Nonassoc

open Multidegree (Name Table)
open Search (Partition Substitution splitText reached)
open Walk (Run)

namespace Checked

/-! ## Evaluation -/

/-- The value of a pattern: a leaf is the element in the slot that it reads. -/
def evaluatePattern (a : PartialAlgebra) (read : Reader) (m : Matching) :
    Pattern → Except Failure Element
  | .leaf v occurrence => do
    let slot ← cell (← cell m v) occurrence
    return Element.basis (← read v slot)
  | .product l r => do
    let x ← evaluatePattern a read m l
    let y ← evaluatePattern a read m r
    (a.multiply x y).mapError .algebra

/-- The pairs of a term: none if its coefficient vanishes in the field. -/
def evaluateTerm (a : PartialAlgebra) (read : Reader) (m : Matching) (t : Term) :
    Except Failure (List Pair) :=
  match t.pattern with
  | .leaf .. => .ok []
  | .product l r =>
    let c := a.field.ofInt t.coefficient
    if c = 0 then .ok []
    else do
      let x ← evaluatePattern a read m l
      let y ← evaluatePattern a read m r
      return Linearization.pairsOf a.field c x y

/-- The pairs of all terms under one matching. -/
def evaluate (z : Linearization) (read : Reader) (m : Matching) : Except Failure (List Pair) := do
  return (← z.identity.terms.mapM (evaluateTerm z.algebra read m)).flatten

/-- Adds what a matching gives to the pairs so far. -/
def addPairs (more : Except Failure (List Pair)) (t : Token) (sum : Linearization.Sum) :
    Run Linearization.Sum :=
  match more with
  | .ok more => ⟨.ok (), t, { sum with pairs := sum.pairs ++ more }⟩
  | .error e => ⟨.error e, t, sum⟩

/-- Adds the pairs under one matching, and polls the token if a batch begins with it. -/
def visitMatching (z : Linearization) (batchSize : Nat) (read : Reader) (m : Matching) (t : Token)
    (sum : Linearization.Sum) : Run Linearization.Sum :=
  match sum.left with
  | left + 1 => addPairs (evaluate z read m) t { sum with left }
  | 0 =>
    match t.poll with
    | (true, t) => addPairs (evaluate z read m) t { sum with left := batchSize - 1 }
    | (false, t) => ⟨.error .cancelled, t, sum⟩

/-! ## Visitors -/

/-- Linearizes at one substitution. -/
def visitSubstitution (z : Linearization) (batchSize : Nat) (read : Reader) (t : Token)
    (p : Progress) : Run Progress :=
  let p := p.countSubstitution
  let run := z.matchings.forEach (visitMatching z batchSize read) t ⟨#[], 0⟩
  match run.result with
  | .error e => ⟨.error e, run.token, p⟩
  | .ok () =>
    ⟨.ok (), run.token, p.record z.count
      (if run.state.pairs.isEmpty then none else some ⟨run.state.pairs.toList⟩)⟩

/-- Writes a partition to the log, and goes through its substitutions. -/
def visitPartition (z : Linearization) (batchSize : Nat) (partition : Partition) (t : Token)
    (p : Progress) : Run Progress :=
  match partition.text z.algebra.table with
  | .error f => ⟨.error (.fault f), t, p.countPartition⟩
  | .ok _ =>
    substitutions z.algebra.basis partition (visitSubstitution z batchSize) t p.countPartition

/-- Writes a split to the log, goes through its partitions, and marks it as finished. -/
def visitSplit (z : Linearization) (batchSize : Nat) (split : List Name) (t : Token)
    (p : Progress) : Run Progress :=
  match splitText z.algebra.table split with
  | .error f => ⟨.error (.fault f), t, p.countSplit⟩
  | .ok _ =>
    let run := partitions z.algebra.table split z.identity.degrees (visitPartition z batchSize) t
      p.countSplit
    match run.result with
    | .ok () => { run with state := run.state.complete }
    | .error _ => run

/-- Goes through the splits of the target. -/
def visitTarget (z : Linearization) (batchSize : Nat) (target : Name) (t : Token) : Run Progress :=
  splits z.algebra.table target z.identity.degrees (visitSplit z batchSize) t .start

/-! ## Outcomes -/

/-- Prepares an identity for evaluation, with as many matchings as were counted. -/
def linearize (identity : Identity) (a : PartialAlgebra) : Except Failure Linearization := do
  let z ← Linearization.ofIdentity identity a
  if z.matchings.toList.length = z.count then return z else throw (.fault .lengths)

/-- All equations that an identity imposes on products of the target. -/
def generate (identity : Identity) (target : Name) (a : PartialAlgebra) (config : Config)
    (t : Token) : Outcome × Token :=
  if !a.table.contains target then (.ofResult (.error (.unknownTarget target)) [] .zero, t)
  else
    match linearize identity a with
    | .error e => (.ofResult (.error e) [] .zero, t)
    | .ok z =>
      let run := visitTarget z config.batchSize target t
      (.ofResult run.result (keptEquations run) run.state.stats, run.token)

/-- Generates for one identity after the other, in addition to what was found before. -/
def generateFrom (target : Name) (a : PartialAlgebra) (config : Config) :
    List Identity → Token → Array Equation → Stats → Outcome × Token
  | [], t, equations, stats => (.ofResult (.ok ()) equations.toList stats, t)
  | identity :: rest, t, equations, stats =>
    let (outcome, t) := generate identity target a config t
    let equations := equations ++ outcome.equations
    let stats := stats.add outcome.stats
    match outcome.status with
    | .complete | .empty => generateFrom target a config rest t equations stats
    | status => ({ status, equations := equations.toList, stats }, t)

/-- All equations that the identities impose on products of the target. -/
def generateAll (identities : List Identity) (target : Name) (a : PartialAlgebra) (config : Config)
    (t : Token) : Outcome × Token :=
  if !a.table.contains target then (.ofResult (.error (.unknownTarget target)) [] .zero, t)
  else
    match a.table.degree target with
    | .error f => (.ofResult (.error (.fault f)) [] .zero, t)
    | .ok d => generateFrom target a config (identities.filter (·.degree ≤ d)) t #[] .zero

/-! ## Reading from memory -/

theorem cell_slot (m : Matching) (v occurrence : Nat) :
    (do cell (← cell m v) occurrence) = (m.slot v occurrence).mapError .fault := by
  rw [cell, Matching.slot]
  cases m[v]? with
  | none => rfl
  | some slots =>
    show cell slots occurrence = _
    rw [Option.bind_some, cell]
    cases slots[occurrence]? <;> rfl

section
variable (a : PartialAlgebra) (s : Substitution) (m : Matching)

theorem evaluatePattern_eq (p : Pattern) :
    evaluatePattern a (readerOf s) m p = Linearization.evaluatePattern a s m p := by
  induction p with
  | leaf v occurrence =>
    rw [evaluatePattern, Linearization.evaluatePattern, ← cell_slot]
    simp only [bind_assoc]
    rfl
  | product l r hl hr => rw [evaluatePattern, Linearization.evaluatePattern, hl, hr]

theorem evaluateTerm_eq (t : Term) :
    evaluateTerm a (readerOf s) m t = Linearization.evaluateTerm a s m t := by
  cases hpattern : t.pattern with
  | leaf v k => simp only [evaluateTerm, Linearization.evaluateTerm, hpattern]
  | product l r =>
    simp only [evaluateTerm, Linearization.evaluateTerm, hpattern, evaluatePattern_eq]

end

theorem evaluate_eq (z : Linearization) (s : Substitution) (m : Matching) :
    evaluate z (readerOf s) m = z.evaluate s m := by
  rw [evaluate, Linearization.evaluate, funext (evaluateTerm_eq z.algebra s m)]

theorem visitMatching_eq (z : Linearization) (batchSize : Nat) (s : Substitution) :
    visitMatching z batchSize (readerOf s) = z.visitMatching batchSize s := by
  funext m t sum
  rw [visitMatching, Linearization.visitMatching, evaluate_eq]
  rfl

theorem visitSubstitution_eq (z : Linearization) (batchSize : Nat) (s : Substitution) :
    visitSubstitution z batchSize (readerOf s) = z.visitSubstitution batchSize s := by
  funext t p
  rw [visitSubstitution, Linearization.visitSubstitution, Linearization.equation, visitMatching_eq]
  generalize z.matchings.forEach (z.visitMatching batchSize s) t ⟨#[], 0⟩ = run
  cases run.result <;> rfl

/-! ## Searching in memory -/

/-- Where two visitors do the same with every item, taking a walk does the same. -/
theorem forEach_congr {α σ : Type} {visitor visitor' : α → Token → σ → Run σ} {w : Walk α}
    (h : ∀ a ∈ w.toList, ∀ t s, visitor a t s = visitor' a t s) (t : Token) (s : σ) :
    w.forEach visitor t s = w.forEach visitor' t s :=
  (Walk.forEach_sameUnless (E := fun _ => False) (fun a ha t s _ => (h a ha t s).symm) t s
    fun _ hfalse => hfalse.elim).symm

/-- What a run keeps in memory has room there: the names and the elements are machine words, and a
list can hold as many words as the identity has letters, and a row of slots for each variable that is
as long as the longest one. -/
structure InMemory (a : PartialAlgebra) (e : Identity) : Prop where
  names : a.table.size ≤ maximalCount
  elements : a.basis.size ≤ maximalCount
  letters : e.degree ≤ wordCapacity
  slots : e.degrees.length * e.degrees.foldr max 0 ≤ wordCapacity

theorem exists_splitText {t : Table} {split : List Name} (h : ∀ n ∈ split, t.contains n = true) :
    ∃ text, splitText t split = .ok text := by
  cases htext : splitText t split with
  | ok text => exact ⟨text, rfl⟩
  | error f =>
    rcases bind_eq_error.1 htext with hmap | ⟨_, -, hpure⟩
    · obtain ⟨n, hn, hentry⟩ := exists_of_mapM_eq_error hmap
      obtain ⟨m, hm⟩ := Table.contains_iff.1 (h n hn)
      cases hm.symm.trans hentry
    · cases hpure

theorem exists_text {t : Table} {p : Partition} (h : ∀ parts ∈ p, ∀ n ∈ parts, t.contains n = true) :
    ∃ text, p.text t = .ok text := by
  cases htext : p.text t with
  | ok text => exact ⟨text, rfl⟩
  | error f =>
    rcases bind_eq_error.1 htext with hmap | ⟨_, -, hpure⟩
    · obtain ⟨parts, hparts, hmap⟩ := exists_of_mapM_eq_error hmap
      obtain ⟨n, hn, hentry⟩ := exists_of_mapM_eq_error hmap
      obtain ⟨m, hm⟩ := Table.contains_iff.1 (h parts hparts n hn)
      cases hm.symm.trans hentry
    · cases hpure

section
variable {z : Linearization} (hb : z.algebra.basis.Built z.algebra.table)
  (hz : InMemory z.algebra z.identity) (hd : z.identity.degrees ≠ [])
  (hpos : ∀ d ∈ z.identity.degrees, 1 ≤ d) {target : Name}
  (ht : z.algebra.table.contains target = true) (batchSize : Nat)
include hb hz hd hpos ht

theorem visitPartition_eq {split : List Name}
    (hsplit : split ∈ (Search.splits z.algebra.table target z.identity.degrees).toList)
    {p : Partition}
    (hp : p ∈ (Search.partitions z.algebra.table split z.identity.degrees).toList) (t : Token)
    (q : Progress) :
    visitPartition z batchSize p t q = z.visitPartition batchSize p t q := by
  obtain ⟨hlens, hparts, -⟩ := (Search.exists_split_iff ht hd hpos).1 ⟨split, hsplit, hp⟩
  obtain ⟨text, htext⟩ := exists_text fun parts hparts' n hn => ((hparts parts hparts').1 n hn).1
  have hcells : p.length * (p.map List.length).foldr max 0 ≤ wordCapacity := by
    have hlen := congrArg List.length hlens
    rw [List.length_map] at hlen
    rw [hlens, hlen]
    exact hz.slots
  rw [visitPartition, htext]
  dsimp only
  rw [substitutions_eq hb hz.elements hcells, funext (visitSubstitution_eq z batchSize)]
  rfl

theorem visitSplit_eq {split : List Name}
    (hsplit : split ∈ (Search.splits z.algebra.table target z.identity.degrees).toList) (t : Token)
    (q : Progress) : visitSplit z batchSize split t q = z.visitSplit batchSize split t q := by
  obtain ⟨-, -, hnames⟩ := Search.splits_spec ht hd hsplit
  obtain ⟨text, htext⟩ := exists_splitText hnames
  have hdegrees : ∀ d ∈ z.identity.degrees, d ≤ wordCapacity :=
    fun d hd => (le_total hd).trans hz.letters
  have hrun := (partitions_eq hz.names split hdegrees (visitPartition z batchSize) t
    q.countSplit).trans (forEach_congr (fun p hp t q =>
      visitPartition_eq hb hz hd hpos ht batchSize hsplit hp t q) t q.countSplit)
  rw [visitSplit, Linearization.visitSplit, htext]
  exact hrun ▸ rfl

theorem visitTarget_eq (t : Token) :
    visitTarget z batchSize target t = z.visitTarget batchSize target t := by
  have hdegrees : total z.identity.degrees ≤ maximalCount := hz.letters.trans (by decide)
  rw [visitTarget, splits_eq hz.names target hdegrees]
  exact forEach_congr (fun split hsplit t q =>
    visitSplit_eq hb hz hd hpos ht batchSize hsplit t q) t _

end

/-! ## Generating in memory -/

theorem linearize_eq (e : Identity) (a : PartialAlgebra) :
    linearize e a = Linearization.ofIdentity e a := by
  rw [linearize]
  cases hz : Linearization.ofIdentity e a with
  | error f => rfl
  | ok z => exact if_pos (Linearization.length_matchings hz)

section
variable {a : PartialAlgebra} (hb : a.basis.Built a.table)
include hb

theorem generate_eq {e : Identity} (he : e.IsNumbered) (hfits : InMemory a e) (target : Name)
    (config : Config) (t : Token) :
    generate e target a config t = Nonassoc.generate e target a config t := by
  rw [generate, Nonassoc.generate, linearize_eq]
  cases ht : a.table.contains target with
  | false => rfl
  | true =>
    cases hz : Linearization.ofIdentity e a with
    | error f => rfl
    | ok z =>
      obtain ⟨rfl, rfl, -⟩ := Linearization.ofIdentity_eq_ok hz
      simp only [visitTarget_eq hb hfits he.degrees_ne_nil he.degrees_pos ht]

theorem generateFrom_eq {identities : List Identity}
    (he : ∀ e ∈ identities, e.IsNumbered ∧ InMemory a e) (target : Name) (config : Config)
    (t : Token) (equations : Array Equation) (stats : Stats) :
    generateFrom target a config identities t equations stats =
      Nonassoc.generateFrom target a config identities t equations stats := by
  induction identities generalizing t equations stats with
  | nil => rfl
  | cons e rest ih =>
    obtain ⟨hnumbered, hfits⟩ := he e List.mem_cons_self
    have hrest := ih fun e he' => he e (List.mem_cons_of_mem _ he')
    rw [generateFrom, Nonassoc.generateFrom, generate_eq hb hnumbered hfits]
    dsimp only
    cases (Nonassoc.generate e target a config t).1.status with
    | complete => exact hrest ..
    | empty => exact hrest ..
    | cancelled => rfl
    | failed f => rfl

theorem generateAll_eq {identities : List Identity}
    (he : ∀ e ∈ identities, e.IsNumbered ∧ InMemory a e) (target : Name) (config : Config)
    (t : Token) :
    generateAll identities target a config t = Nonassoc.generateAll identities target a config t := by
  rw [generateAll, Nonassoc.generateAll]
  cases ht : a.table.contains target with
  | false =>
    cases hd : a.table.degree target with
    | error f => rfl
    | ok d => cases ht.symm.trans (Table.degree_eq_ok_iff.1 hd).1
  | true =>
    rw [Table.degree_eq ht]
    exact generateFrom_eq hb (fun e he' => he e (List.mem_of_mem_filter he')) ..

end

end Checked

/-! ## Reasons for a failure -/

/-- The failures that a run may end with: the target is not in the table, the matchings do not fit in
memory, or a product that is looked up is not known. -/
inductive Failure.IsOrdinary (a : PartialAlgebra) (target : Name) : Failure → Prop
  | unknownTarget : a.table.contains target = false → IsOrdinary a target (.unknownTarget target)
  | exhausted : IsOrdinary a target (.exhausted .permutationList)
  | unknownProduct {l r : BasisId} :
      a.products.product? l r = none → IsOrdinary a target (.algebra (.unknownProduct l r))

section
variable {a : PartialAlgebra} {target : Name} {s : Substitution} {m : Matching}
  {degrees : List Nat} (hs : s.map List.length = degrees) (hm : m ∈ matchingLists degrees)
include hs hm

/-- All that a pattern may lack, if its leaves read slots, is a product. -/
theorem Linearization.isOrdinary_of_evaluatePattern {p : Pattern}
    (hp : ∀ x ∈ p.leaves, x.2 < degrees.getD x.1 0) {f : Failure}
    (h : evaluatePattern a s m p = .error f) : f.IsOrdinary a target := by
  induction p with
  | leaf v k =>
    obtain ⟨j, hj, hslot⟩ := exists_slot_of_mem hm (hp (v, k) (List.mem_singleton_self _))
    obtain ⟨b, hb⟩ := Search.exists_slot hs hj
    rw [evaluatePattern_leaf hslot hb] at h
    cases h
  | product l r hl hr =>
    rw [evaluatePattern, bind_eq_error] at h
    rcases h with h | ⟨u, -, h⟩
    · exact hl (fun x hx => hp x (List.mem_append_left _ hx)) h
    rcases bind_eq_error.1 h with h | ⟨v, -, h⟩
    · exact hr (fun x hx => hp x (List.mem_append_right _ hx)) h
    obtain ⟨e, hproduct, rfl⟩ := mapError_eq_error.1 h
    obtain ⟨x, -, y, -, hnone, rfl⟩ := PartialAlgebra.multiply_eq_error hproduct
    exact .unknownProduct hnone

theorem Linearization.isOrdinary_of_evaluateTerm {term : Term}
    (hterm : term.pattern.IsNumbered degrees) {f : Failure}
    (h : evaluateTerm a s m term = .error f) : f.IsOrdinary a target := by
  cases hpattern : term.pattern with
  | leaf v k =>
    simp only [evaluateTerm, hpattern] at h
    cases h
  | product l r =>
    rw [hpattern] at hterm
    have hleaves : ∀ q ∈ l.leaves ++ r.leaves, q.2 < degrees.getD q.1 0 :=
      fun q hq => (hterm.mem_iff q.1 q.2).1 hq
    rw [evaluateTerm_product hpattern] at h
    split at h
    · cases h
    rcases bind_eq_error.1 h with h | ⟨u, -, h⟩
    · exact isOrdinary_of_evaluatePattern hs hm (fun x hx => hleaves x (List.mem_append_left _ hx)) h
    rcases bind_eq_error.1 h with h | ⟨v, -, h⟩
    · exact isOrdinary_of_evaluatePattern hs hm (fun x hx => hleaves x (List.mem_append_right _ hx)) h
    · cases h

end

section
variable {a : PartialAlgebra} (hb : a.basis.Built a.table) {target : Name} {config : Config}
include hb

theorem isOrdinary_of_failed {e : Identity} (he : e.IsNumbered) {t : Token} {f : Failure}
    (h : (generate e target a config t).1.status = .failed f) : f.IsOrdinary a target := by
  cases ht : a.table.contains target with
  | false =>
    rw [generate, ht] at h
    cases h
    exact .unknownTarget ht
  | true =>
    cases hz : Linearization.ofIdentity e a with
    | error f' =>
      rw [generate, ht, hz, Linearization.ofIdentity_eq_error hz] at h
      cases h
      exact .exhausted
    | ok z =>
      obtain ⟨s, hs, m, hm, hevaluate⟩ := exists_evaluate_of_failed ht hz h
      obtain ⟨rfl, rfl, hmatchings⟩ := Linearization.ofIdentity_eq_ok hz
      have hlens := ((Search.mem_reached ht he.degrees_ne_nil hb he.degrees_pos).1 hs).lengths
      rw [hmatchings, (yields_matchings _).toList] at hm
      rcases bind_eq_error.1 hevaluate with hterms | ⟨pairs, -, hpure⟩
      · obtain ⟨term, hterm, herror⟩ := exists_of_mapM_eq_error hterms
        exact Linearization.isOrdinary_of_evaluateTerm hlens hm (he.numbered term hterm) herror
      · cases hpure

theorem isOrdinary_of_failed_generateFrom {identities : List Identity}
    (he : ∀ e ∈ identities, e.IsNumbered) {t : Token} {equations : Array Equation} {stats : Stats}
    {f : Failure}
    (h : (generateFrom target a config identities t equations stats).1.status = .failed f) :
    f.IsOrdinary a target := by
  induction identities generalizing t equations stats with
  | nil =>
    simp only [generateFrom, Outcome.ofResult, Outcome.ofEquations] at h
    split at h <;> cases h
  | cons e rest ih =>
    by_cases hfinished : (generate e target a config t).1.status.IsFinished
    · rw [(generateFrom_of_isFinished rest equations stats hfinished).1] at h
      exact ih (fun e he' => he e (List.mem_cons_of_mem _ he')) h
    · rw [(generateFrom_of_not_isFinished rest equations stats hfinished).1] at h
      exact isOrdinary_of_failed hb (he e List.mem_cons_self) h

theorem isOrdinary_of_failed_generateAll {identities : List Identity}
    (he : ∀ e ∈ identities, e.IsNumbered) {t : Token} {f : Failure}
    (h : (generateAll identities target a config t).1.status = .failed f) :
    f.IsOrdinary a target := by
  rw [generateAll] at h
  cases hd : a.table.degree target with
  | error f' =>
    rw [hd] at h
    cases h
    refine .unknownTarget (Bool.eq_false_iff.2 fun ht => ?_)
    cases hd.symm.trans (Table.degree_eq ht)
  | ok d =>
    rw [hd] at h
    exact isOrdinary_of_failed_generateFrom hb (fun e he' => he e (List.mem_of_mem_filter he')) h

end

/-! ## Runs without faults -/

end Nonassoc
