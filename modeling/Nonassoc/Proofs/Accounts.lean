import Nonassoc.Proofs.Counts
import Nonassoc.Proofs.Successions
import Nonassoc.Proofs.Visits

/-!
# The accounts of a run

However a run ends, its counts of equations and of pairs are those of the equations it returns, none of
which is empty (`Outcome.Exact`). A substitution is counted before its matchings are: so at any time
the matchings of all counted substitutions have been counted, or of all but the last one
(`Progress.Settles`, which a walk inherits from its visits). A run that comes to its end has counted
what the searches enumerate (`Stats.CountsSearches`).

Main result: `generate_accounts`, for one identity and for several.
-/

namespace Nonassoc

open Multidegree (Name)
open Search (Partition Substitution splits partitions substitutions reached)
open Walk (Run)

namespace Identity

variable (e : Identity) (target : Name) (a : PartialAlgebra)

/-- The number of ways to match the occurrences of an identity to slots. -/
def assignments : Nat := (matchings e.degrees).tally fun _ => 1

/-- The number of splits of the target for an identity. -/
def splitCount : Nat := (splits a.table target e.degrees).tally fun _ => 1

/-- The number of partitions of all these splits. -/
def partitionCount : Nat :=
  (splits a.table target e.degrees).tally fun split =>
    (partitions a.table split e.degrees).tally fun _ => 1

/-- The number of substitutions of all these partitions. -/
def substitutionCount : Nat :=
  (splits a.table target e.degrees).tally fun split =>
    (partitions a.table split e.degrees).tally fun partition =>
      (substitutions a.basis partition).tally fun _ => 1

variable {e target a}

theorem assignments_eq {z : Linearization} (hz : Linearization.ofIdentity e a = .ok z) :
    e.assignments = z.count := by
  rw [assignments, Walk.tally_one, ← Linearization.length_matchings hz,
    (Linearization.ofIdentity_eq_ok hz).2.2]

theorem splitCount_eq : e.splitCount target a = (splits a.table target e.degrees).toList.length :=
  Walk.tally_one _

theorem partitionCount_eq : e.partitionCount target a =
    ((splits a.table target e.degrees).toList.flatMap fun split =>
      (partitions a.table split e.degrees).toList).length := by
  simp only [partitionCount, Walk.tally_one]
  rw [Walk.tally_eq_sum, List.length_flatMap]

theorem substitutionCount_eq :
    e.substitutionCount target a = (reached a.table a.basis target e.degrees).length := by
  simp only [substitutionCount, Walk.tally_one]
  simp only [Walk.tally_eq_sum, reached, List.length_flatMap]

end Identity

/-! ## Matchings -/

namespace Progress

/-- The matchings of all counted substitutions have been counted, `count` for each. -/
def Settled (count : Nat) (p : Progress) : Prop :=
  count * p.stats.substitutions = p.stats.permutations

/-- A run that was started with settled counts leaves them so if it comes to its end. Otherwise the
last substitution may have been counted without its matchings. -/
structure Settles (count : Nat) (run : Run Progress) : Prop where
  finished : run.result = .ok () → run.state.Settled count
  stopped : run.state.Settled count ∨
    count * run.state.stats.substitutions = run.state.stats.permutations + count

/-- A walk settles its counts if each visit does. -/
theorem Settles.forEach {α : Type} {count : Nat} {visitor : α → Token → Progress → Run Progress}
    (h : ∀ a t p, Settled count p → Settles count (visitor a t p)) (w : Walk α) (t : Token)
    {p : Progress} (hp : p.Settled count) : Settles count (w.forEach visitor t p) := by
  obtain ⟨hstopped, hfinished⟩ := Walk.forEach_finished visitor (Q := fun p _ => p.Settled count)
    (P := fun p _ => p.Settled count ∨
      count * p.stats.substitutions = p.stats.permutations + count)
    (fun p _ hp => .inl hp) (fun a t p _ hp hr => (h a t p hp).finished hr)
    (fun a t p _ e hp _ => (h a t p hp).stopped) w t (l := []) hp
  exact ⟨hfinished, hstopped⟩

end Progress

namespace Linearization

variable (z : Linearization) (batchSize : Nat) (t : Token) {p : Progress}

theorem settles_visitSubstitution (s : Substitution) (hp : p.Settled z.count) :
    Progress.Settles z.count (z.visitSubstitution batchSize s t p) := by
  unfold Progress.Settled at hp
  cases hr : (z.visitSubstitution batchSize s t p).result with
  | ok u =>
    have hsettled : (z.visitSubstitution batchSize s t p).state.Settled z.count := by
      rw [visitSubstitution_eq_ok hr]
      simp only [Progress.Settled, Progress.record, Progress.countSubstitution, Nat.mul_succ, hp]
    exact ⟨fun _ => hsettled, .inl hsettled⟩
  | error e =>
    refine ⟨fun h => (by cases hr.symm.trans h), .inr ?_⟩
    rw [visitSubstitution_eq_error hr]
    simp only [Progress.countSubstitution, Nat.mul_succ, hp]

theorem settles_visitPartition (partition : Partition) (hp : p.Settled z.count) :
    Progress.Settles z.count (z.visitPartition batchSize partition t p) :=
  .forEach (fun s t _ hp => z.settles_visitSubstitution batchSize t s hp) _ t
    (p := p.countPartition) hp

theorem settles_visitSplit (split : List Name) (hp : p.Settled z.count) :
    Progress.Settles z.count (z.visitSplit batchSize split t p) := by
  have h : Progress.Settles z.count _ :=
    .forEach (fun partition t _ hp => z.settles_visitPartition batchSize t partition hp)
      (partitions z.algebra.table split z.identity.degrees) t (p := p.countSplit) hp
  unfold visitSplit
  simp only
  split <;> exact ⟨h.finished, h.stopped⟩

theorem settles_visitTarget (target : Name) :
    Progress.Settles z.count (z.visitTarget batchSize target t) :=
  .forEach (fun split t _ hp => z.settles_visitSplit batchSize t split hp) _ t
    (p := .start) (Nat.mul_zero _)

variable {z}

theorem pairs_ne_nil_of_equationAt {s : Substitution} {q : Equation} (h : z.equationAt s = some q) :
    q.pairs ≠ [] := by
  unfold equationAt at h
  split at h
  · split at h
    · cases h
    · rename_i hne
      cases h
      exact fun hnil => hne (List.isEmpty_iff.2 hnil)
  · cases h

theorem pairs_ne_nil_of_mem {split : List Name} {q : Equation} (h : q ∈ z.equationsOf split) :
    q.pairs ≠ [] := by
  obtain ⟨partition, -, h⟩ := List.mem_flatMap.1 h
  obtain ⟨s, -, h⟩ := List.mem_flatMap.1 h
  exact pairs_ne_nil_of_equationAt (Option.mem_toList.1 h)

/-- There is at most one equation for each substitution. -/
theorem length_equations_le (l : List Substitution) :
    (l.flatMap fun s => (z.equationAt s).toList).length ≤ l.length := by
  rw [← List.filterMap_eq_flatMap_toList]
  exact List.length_filterMap_le _ _

end Linearization

/-! ## Equations -/

/-- The counts of equations and of pairs are those of the returned equations, and none of these is
empty. A run that came to its end tells whether there are any. -/
structure Outcome.Exact (o : Outcome) : Prop where
  counts : o.stats.Counts o.equations
  nonempty : ∀ q ∈ o.equations, q.pairs ≠ []
  empty : o.status = .empty → o.equations = []
  complete : o.status = .complete → o.equations ≠ []

namespace Outcome

variable {result : Except Failure Unit} {equations : List Equation} {stats : Stats}

theorem equations_of_empty (h : (ofResult result equations stats).status = .empty) :
    (ofResult result equations stats).equations = [] := by
  obtain rfl := isFinished_ofResult.1 (.inr h)
  cases equations with
  | nil => rfl
  | cons q equations => cases h

theorem equations_of_complete (h : (ofResult result equations stats).status = .complete) :
    (ofResult result equations stats).equations ≠ [] := by
  obtain rfl := isFinished_ofResult.1 (.inl h)
  cases equations with
  | nil => cases h
  | cons q equations => exact List.cons_ne_nil q equations

/-- Only the equations are counted at the end. -/
theorem stats_ofResult :
    (ofResult result equations stats).stats.substitutions = stats.substitutions ∧
      (ofResult result equations stats).stats.permutations = stats.permutations := by
  unfold ofResult
  split <;> exact ⟨rfl, rfl⟩

end Outcome

section
variable {e : Identity} {target : Name} {a : PartialAlgebra} {config : Config} {t : Token}

theorem pairs_ne_nil_of_mem_splitEquations {split : List Name} {q : Equation}
    (h : q ∈ splitEquations e a split) : q.pairs ≠ [] := by
  unfold splitEquations at h
  split at h
  · cases h
  · exact Linearization.pairs_ne_nil_of_mem h

theorem pairs_ne_nil_of_mem_generate {q : Equation}
    (hq : q ∈ (generate e target a config t).1.equations) : q.pairs ≠ [] := by
  have hreturned : (generate e target a config t).1.status.IsFinished ∨
      (generate e target a config t).1.status = .cancelled := by
    cases hstatus : (generate e target a config t).1.status with
    | complete => exact .inl (.inl rfl)
    | empty => exact .inl (.inr rfl)
    | cancelled => exact .inr rfl
    | failed f =>
      rw [equations_of_failed hstatus] at hq
      cases hq
  rw [(generate_eq_searched hreturned).1] at hq
  obtain ⟨split, -, hq⟩ := List.mem_flatMap.1 hq
  exact pairs_ne_nil_of_mem_splitEquations hq

theorem exact_generate : (generate e target a config t).1.Exact := by
  have hcounts : (generate e target a config t).1.stats.Counts _ := counts_generate
  have hpairs : ∀ q ∈ (generate e target a config t).1.equations, q.pairs ≠ [] :=
    fun q => pairs_ne_nil_of_mem_generate
  obtain ⟨result, equations, stats, h⟩ := exists_ofResult e target a config t
  rw [h] at hcounts hpairs ⊢
  exact ⟨hcounts, hpairs, Outcome.equations_of_empty, Outcome.equations_of_complete⟩

end

/-! ## One identity -/

/-- The counts are those of the searches for the given identities, each taken by itself to its end,
and there are at most as many equations as substitutions. -/
structure Stats.CountsSearches (target : Name) (a : PartialAlgebra) (identities : List Identity)
    (s : Stats) : Prop where
  subtypes : s.subtypes = total (identities.map (·.splitCount target a))
  partitions : s.partitions = total (identities.map (·.partitionCount target a))
  substitutions : s.substitutions = total (identities.map (·.substitutionCount target a))
  equations_le : s.equations ≤ s.substitutions

/-- What the outcome of a run for one identity tells: besides its equations, how many matchings and
what else it has counted. -/
structure Outcome.Accounts (target : Name) (a : PartialAlgebra) (e : Identity) (o : Outcome) : Prop
    extends o.Exact where
  failed : ∀ f, o.status = .failed f → o.equations = []
  settled : o.status.IsFinished → e.assignments * o.stats.substitutions = o.stats.permutations
  unsettled : e.assignments * o.stats.substitutions = o.stats.permutations ∨
    e.assignments * o.stats.substitutions = o.stats.permutations + e.assignments
  searches : o.status.IsFinished → o.stats.CountsSearches target a [e]

section
variable {e : Identity} {target : Name} {a : PartialAlgebra} {config : Config} {t : Token}

theorem countsSearches_generate (h : (generate e target a config t).1.status.IsFinished) :
    (generate e target a config t).1.stats.CountsSearches target a [e] := by
  obtain ⟨-, z, hz, -⟩ := pairsAt_of_finished h
  rw [generate_of_isFinished h hz]
  simp only [Outcome.ofResult, Outcome.ofEquations]
  constructor
  · simp [Identity.splitCount_eq]
  · simp [Identity.partitionCount_eq]
  · simp [Identity.substitutionCount_eq]
  · exact Linearization.length_equations_le _

/-- However a run ends, its counts are settled, or it owes the matchings of one substitution. -/
theorem settles_generate :
    ((generate e target a config t).1.status.IsFinished →
      e.assignments * (generate e target a config t).1.stats.substitutions =
        (generate e target a config t).1.stats.permutations) ∧
    (e.assignments * (generate e target a config t).1.stats.substitutions =
        (generate e target a config t).1.stats.permutations ∨
      e.assignments * (generate e target a config t).1.stats.substitutions =
        (generate e target a config t).1.stats.permutations + e.assignments) := by
  rcases generate_cases e target a with ⟨f, -, hf⟩ | ⟨z, hz, -, -, hrun⟩
  · rw [(hf config t).1, Outcome.stats_ofResult.1, Outcome.stats_ofResult.2]
    exact ⟨fun _ => rfl, .inl rfl⟩
  · have hsettles := z.settles_visitTarget config.batchSize t target
    rw [← Identity.assignments_eq hz] at hsettles
    rw [(hrun config t).1, Outcome.stats_ofResult.1, Outcome.stats_ofResult.2,
      Outcome.isFinished_ofResult]
    exact ⟨hsettles.finished, hsettles.stopped⟩

theorem accounts_generate : (generate e target a config t).1.Accounts target a e where
  toExact := exact_generate
  failed _ := equations_of_failed
  settled := settles_generate.1
  unsettled := settles_generate.2
  searches := countsSearches_generate

end

/-! ## Several identities -/

section
variable {target : Name} {a : PartialAlgebra} {config : Config}

theorem Stats.sum_cons (s : Stats) (l : List Stats) : Stats.sum (s :: l) = s.add (Stats.sum l) := rfl

theorem counts_sum {outcomes : List Outcome} (h : ∀ o ∈ outcomes, o.Exact) :
    (Stats.sum (outcomes.map Outcome.stats)).Counts (outcomes.flatMap Outcome.equations) := by
  induction outcomes with
  | nil => exact ⟨rfl, rfl⟩
  | cons o outcomes ih =>
    rw [List.forall_mem_cons] at h
    rw [List.map_cons, Stats.sum_cons, List.flatMap_cons]
    exact h.1.counts.add (ih h.2)

/-- A status that tells of an end tells of the ends of all runs. -/
theorem Outcome.Joins.isFinished {outcomes : List Outcome} {o : Outcome} (h : o.Joins outcomes)
    (hfinished : o.status.IsFinished) : ∀ o' ∈ outcomes, o'.status.IsFinished := by
  intro o' ho'
  by_contra hstopped
  exact hstopped (h.stopped o' ho' hstopped ▸ hfinished)

theorem Outcome.Joins.exact {outcomes : List Outcome} {o : Outcome} (h : o.Joins outcomes)
    (hall : ∀ o' ∈ outcomes, o'.Exact) : o.Exact where
  counts := by
    rw [h.stats, h.equations]
    exact counts_sum hall
  nonempty q hq := by
    rw [h.equations] at hq
    obtain ⟨o', ho', hq⟩ := List.mem_flatMap.1 hq
    exact (hall o' ho').nonempty q hq
  empty hstatus := by
    have hfinished := h.finished (h.isFinished (.inr hstatus))
    rw [hstatus] at hfinished
    by_contra hne
    rw [if_neg hne] at hfinished
    cases hfinished
  complete hstatus := by
    have hfinished := h.finished (h.isFinished (.inl hstatus))
    rw [hstatus] at hfinished
    intro hnil
    rw [if_pos hnil] at hfinished
    cases hfinished

namespace RunsInTurn

variable {identities : List Identity} {t t' : Token} {outcomes : List Outcome}

theorem exact (h : RunsInTurn target a config identities t outcomes t') :
    ∀ o ∈ outcomes, o.Exact := by
  induction h with
  | done t => exact nofun
  | stop rest _ => exact List.forall_mem_singleton.2 exact_generate
  | next _ _ ih => exact List.forall_mem_cons.2 ⟨exact_generate, ih⟩

/-- Runs that all come to their end count the searches for all identities. -/
theorem countsSearches (h : RunsInTurn target a config identities t outcomes t')
    (hall : ∀ o ∈ outcomes, o.status.IsFinished) :
    (Stats.sum (outcomes.map Outcome.stats)).CountsSearches target a identities := by
  induction h with
  | done t => exact ⟨rfl, rfl, rfl, Nat.le_refl _⟩
  | stop rest hstopped => exact absurd (hall _ List.mem_cons_self) hstopped
  | next hfinished _ ih =>
    have hfirst := countsSearches_generate hfinished
    have hrest := ih fun o ho => hall o (List.mem_cons_of_mem _ ho)
    rw [List.map_cons, Stats.sum_cons]
    constructor
    · simp [Stats.add, hfirst.subtypes, hrest.subtypes]
    · simp [Stats.add, hfirst.partitions, hrest.partitions]
    · simp [Stats.add, hfirst.substitutions, hrest.substitutions]
    · exact Nat.add_le_add hfirst.equations_le hrest.equations_le

end RunsInTurn

end

/-- The accounts of a run are exact, however it ends. For one identity this includes the matchings:
all of them for each substitution that was counted, unless the run was stopped at the last one. A run
that comes to its end has counted what the searches find for its identities; if there are several,
they are those of at most the target's degree. -/
theorem generate_accounts :
    (∀ (e : Identity) (target : Name) (a : PartialAlgebra) (config : Config) (t : Token),
      (generate e target a config t).1.Accounts target a e) ∧
    ∀ (identities : List Identity) (target : Name) (a : PartialAlgebra) (config : Config) (t : Token),
      (generateAll identities target a config t).1.Exact ∧
      ((generateAll identities target a config t).1.status.IsFinished →
        ∃ d, a.table.degree target = .ok d ∧
          (generateAll identities target a config t).1.stats.CountsSearches target a
            (identities.filter (·.degree ≤ d))) := by
  refine ⟨fun e target a config t => accounts_generate, fun identities target a config t => ?_⟩
  unfold generateAll
  cases hd : a.table.degree target with
  | error f => exact ⟨⟨⟨rfl, rfl⟩, nofun, nofun, nofun⟩, fun h => by rcases h with h | h <;> cases h⟩
  | ok d =>
    have hnone : Stats.zero.Counts (#[] : Array Equation).toList := ⟨rfl, rfl⟩
    obtain ⟨outcomes, hruns, hjoins⟩ := exists_runsInTurn (identities.filter (·.degree ≤ d)) t hnone
    have hjoins := hjoins.of_empty
    refine ⟨hjoins.exact hruns.exact, fun h => ⟨d, rfl, ?_⟩⟩
    rw [hjoins.stats]
    exact hruns.countsSearches (hjoins.isFinished h)

end Nonassoc
