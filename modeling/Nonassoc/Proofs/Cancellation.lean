import Nonassoc.Proofs.Polls
import Nonassoc.Proofs.Runs

/-!
# Cancelled runs

A run makes a fixed number of polls (`polls_generate`, `polls_generateFrom`). If its token grants
fewer, then the run is cancelled, and what it returns are the equations of the splits that it had
finished by then (`generate_eq_searched`, `generateFrom_eq_searched`), which grow with the number of
polls. `CutByBudget` puts this together; main result: `generate_cutByBudget`.
-/

namespace Nonassoc

open Multidegree (Name)
open Search (Partition Substitution splits partitions substitutions)
open Walk (Run)

namespace Linearization

variable (z : Linearization)

/-! ## Polls of a search -/

theorem polls_visitMatching (batchSize : Nat) (s : Substitution) (m : Matching) (sum : Sum) :
    ∃ n, Run.Polls (z.visitMatching batchSize s m · sum) n := by
  have hadd : ∀ sum, Run.Polls (z.addMatching s m · sum) 0 := by
    intro sum
    unfold addMatching
    cases z.evaluate s m with
    | ok more => exact .pure _ _
    | error e => exact .pure _ _
  cases hleft : sum.left with
  | zero =>
    refine ⟨1, ((hadd { sum with left := batchSize - 1 }).poll
      (r := (.error .cancelled, sum)) rfl).congr fun t => ?_⟩
    simp only [visitMatching, hleft]
    rcases t.poll with ⟨_ | _, t⟩ <;> rfl
  | succ left =>
    refine ⟨0, (hadd { sum with left }).congr fun t => ?_⟩
    simp only [visitMatching, hleft]

/-- How a substitution ends whose matchings end as given. -/
def substitutionEnd (p : Progress) (r : Except Failure Unit × Sum) :
    Except Failure Unit × Progress :=
  match r.1 with
  | .ok () => (.ok (), p.countSubstitution.record z.count
      (if r.2.pairs.isEmpty then none else some ⟨r.2.pairs.toList⟩))
  | .error e => (.error e, p.countSubstitution)

theorem polls_visitSubstitution (batchSize : Nat) (s : Substitution) (p : Progress) :
    ∃ n, Run.Polls (z.visitSubstitution batchSize s · p) n := by
  obtain ⟨n, hpolls, -⟩ :=
    Walk.polls_forEach (fun m sum => z.polls_visitMatching batchSize s m sum) z.matchings ⟨#[], 0⟩
  refine ⟨n, (hpolls.map (z.substitutionEnd p) fun r hr => ?_).congr fun t => ?_⟩
  · simp only [substitutionEnd, Run.stopped_iff.1 hr]
    rfl
  · simp only [visitSubstitution, equation, substitutionEnd, Run.split]
    cases (z.matchings.forEach (z.visitMatching batchSize s) t ⟨#[], 0⟩).result <;> rfl

theorem polls_visitPartition (batchSize : Nat) (partition : Partition) (p : Progress) :
    ∃ n, Run.Polls (z.visitPartition batchSize partition · p) n := by
  obtain ⟨n, hpolls, -⟩ := Walk.polls_forEach (z.polls_visitSubstitution batchSize)
    (substitutions z.algebra.basis partition) p.countPartition
  exact ⟨n, hpolls⟩

/-- How a split ends whose partitions end as given. -/
def splitEnd (r : Except Failure Unit × Progress) : Except Failure Unit × Progress :=
  match r.1 with
  | .ok () => (.ok (), r.2.complete)
  | .error _ => r

theorem polls_visitSplit (batchSize : Nat) (split : List Name) (p : Progress) :
    ∃ n, Run.Polls (z.visitSplit batchSize split · p) n := by
  obtain ⟨n, hpolls, -⟩ := Walk.polls_forEach (z.polls_visitPartition batchSize)
    (partitions z.algebra.table split z.identity.degrees) p.countSplit
  refine ⟨n, (hpolls.map splitEnd fun r hr => ?_).congr fun t => ?_⟩
  · simp only [splitEnd, Run.stopped_iff.1 hr]
    exact hr
  · simp only [visitSplit, splitEnd, Run.split]
    split <;> simp only [*]

theorem polls_visitTarget (batchSize : Nat) (target : Name) :
    ∃ n, Run.Polls (z.visitTarget batchSize target ·) n ∧
      Grows ((splits z.algebra.table target z.identity.degrees).finished
        (z.visitSplit batchSize) · .start) n :=
  Walk.polls_forEach (z.polls_visitSplit batchSize) _ _

/-! ## Equations of a split -/

variable {z}

/-- The equation at a substitution: none if there is no pair, or if an evaluation fails. -/
def equationAt (z : Linearization) (s : Substitution) : Option Equation :=
  match z.matchings.toList.mapM (z.evaluate s) with
  | .ok pairs => if pairs.flatten.isEmpty then none else some ⟨pairs.flatten⟩
  | .error _ => none

/-- The equations of a split: those at all substitutions of its partitions, in order. -/
def equationsOf (z : Linearization) (split : List Name) : List Equation :=
  (partitions z.algebra.table split z.identity.degrees).toList.flatMap fun partition =>
    (substitutions z.algebra.basis partition).toList.flatMap fun s => (z.equationAt s).toList

theorem PairsAt.equationAt {s : Substitution} {pairs : List Pair} (h : z.PairsAt s pairs) :
    z.equationAt s = if pairs.isEmpty then none else some ⟨pairs⟩ := by
  obtain ⟨ps, hps, rfl⟩ := h
  rw [Linearization.equationAt, mapM_eq_ok.2 hps]

/-- A visit to a substitution that succeeds records its equation. -/
theorem visitSubstitution_eq_ok {batchSize : Nat} {s : Substitution} {t : Token} {p : Progress}
    (h : (z.visitSubstitution batchSize s t p).result = .ok ()) :
    (z.visitSubstitution batchSize s t p).state =
      p.countSubstitution.record z.count (z.equationAt s) := by
  unfold visitSubstitution at h ⊢
  rcases he : z.equation batchSize s t with ⟨_ | e, t'⟩
  · rw [he] at h
    cases h
  · obtain ⟨pairs, hpairs, rfl⟩ := equation_eq_ok (congrArg Prod.fst he)
    rw [hpairs.equationAt]

theorem visitSubstitution_eq_error {batchSize : Nat} {s : Substitution} {t : Token} {p : Progress}
    {e : Failure} (h : (z.visitSubstitution batchSize s t p).result = .error e) :
    (z.visitSubstitution batchSize s t p).state = p.countSubstitution := by
  unfold visitSubstitution at h ⊢
  rcases he : z.equation batchSize s t with ⟨_ | e, t'⟩
  · rfl
  · rw [he] at h
    cases h

end Linearization

namespace Progress

/-- The given equations were found, and no split was finished. -/
structure Adds (p : Progress) (found : List Equation) (p' : Progress) : Prop where
  equations : p'.equations.toList = p.equations.toList ++ found
  completed : p'.completed = p.completed

theorem Adds.nil {p p' : Progress} (he : p'.equations = p.equations)
    (hc : p'.completed = p.completed) : p.Adds [] p' :=
  ⟨by rw [he, List.append_nil], hc⟩

theorem Adds.trans {p p' p'' : Progress} {found found' : List Equation} (h : p.Adds found p')
    (h' : p'.Adds found' p'') : p.Adds (found ++ found') p'' :=
  ⟨by rw [h'.equations, h.equations, List.append_assoc], h'.completed.trans h.completed⟩

theorem adds_record (p : Progress) (count : Nat) (e : Option Equation) :
    p.Adds e.toList (p.record count e) := by
  cases e with
  | none => exact .nil rfl rfl
  | some e => exact ⟨Array.toList_push, rfl⟩

/-- A run inside a split only adds equations: the given ones if it comes to its end. -/
structure Finds (p : Progress) (found : List Equation) (run : Run Progress) : Prop where
  adds : ∃ more, p.Adds more run.state
  all : run.result = .ok () → p.Adds found run.state

/-- What was done before without finding anything does not count. -/
theorem Finds.after {p p' : Progress} {found : List Equation} {run : Run Progress}
    (h : p'.Finds found run) (hp : p.Adds [] p') : p.Finds found run :=
  ⟨h.adds.imp fun _ hmore => hp.trans hmore, fun hr => hp.trans (h.all hr)⟩

/-- A walk finds what the visits to its items find. -/
theorem Finds.forEach {α : Type} {visitor : α → Token → Progress → Run Progress}
    {found : α → List Equation}
    (h : ∀ a t (p : Progress), p.Finds (found a) (visitor a t p)) (w : Walk α) (t : Token)
    (p : Progress) : p.Finds (w.toList.flatMap found) (w.forEach visitor t p) := by
  have hrun := Walk.forEach_finished visitor
    (Q := fun p' l => p.Adds (l.flatMap found) p') (P := fun p' _ => ∃ more, p.Adds more p')
    (fun p' l hl => ⟨_, hl⟩)
    (fun a t p' l hl hr => by
      rw [List.flatMap_append, List.flatMap_singleton]
      exact hl.trans ((h a t p').all hr))
    (fun a t p' l e hl _ => by
      obtain ⟨more, hmore⟩ := (h a t p').adds
      exact ⟨_, hl.trans hmore⟩)
    w t (s := p) (l := []) (.nil rfl rfl)
  refine ⟨hrun.1, fun hr => ?_⟩
  have hall := hrun.2 hr
  rwa [Walk.finished_eq_toList hr] at hall

end Progress

namespace Linearization

variable (z : Linearization)

theorem finds_visitSubstitution (batchSize : Nat) (s : Substitution) (t : Token) (p : Progress) :
    p.Finds (z.equationAt s).toList (z.visitSubstitution batchSize s t p) := by
  have hcount : p.Adds [] p.countSubstitution := .nil rfl rfl
  cases hr : (z.visitSubstitution batchSize s t p).result with
  | ok u =>
    have hadds := hcount.trans (p.countSubstitution.adds_record z.count (z.equationAt s))
    rw [← visitSubstitution_eq_ok hr] at hadds
    exact ⟨⟨_, hadds⟩, fun _ => hadds⟩
  | error e =>
    rw [← visitSubstitution_eq_error hr] at hcount
    exact ⟨⟨_, hcount⟩, fun h => nomatch hr.symm.trans h⟩

theorem finds_visitPartition (batchSize : Nat) (partition : Partition) (t : Token) (p : Progress) :
    p.Finds ((substitutions z.algebra.basis partition).toList.flatMap fun s =>
      (z.equationAt s).toList) (z.visitPartition batchSize partition t p) :=
  (Progress.Finds.forEach (z.finds_visitSubstitution batchSize) _ t p.countPartition).after
    (.nil rfl rfl)

/-- The search of the partitions of a split. -/
theorem finds_partitions (batchSize : Nat) (split : List Name) (t : Token) (p : Progress) :
    p.Finds (z.equationsOf split) ((partitions z.algebra.table split z.identity.degrees).forEach
      (z.visitPartition batchSize) t p.countSplit) :=
  (Progress.Finds.forEach (z.finds_visitPartition batchSize) _ t p.countSplit).after (.nil rfl rfl)

variable {z}

/-- A split that is finished gives its equations, and these are marked. -/
theorem visitSplit_eq_ok {batchSize : Nat} {split : List Name} {t : Token} {p : Progress}
    (h : (z.visitSplit batchSize split t p).result = .ok ()) :
    (z.visitSplit batchSize split t p).state.equations.toList =
        p.equations.toList ++ z.equationsOf split ∧
      (z.visitSplit batchSize split t p).state.completed =
        (z.visitSplit batchSize split t p).state.equations.size := by
  rw [result_visitSplit] at h
  simp only [visitSplit, h]
  exact ⟨((z.finds_partitions batchSize split t p).all h).equations, rfl⟩

/-- A split that is not finished leaves the mark where it was. -/
theorem visitSplit_eq_error {batchSize : Nat} {split : List Name} {t : Token} {p : Progress}
    {e : Failure} (h : (z.visitSplit batchSize split t p).result = .error e) :
    ∃ more, p.Adds more (z.visitSplit batchSize split t p).state := by
  rw [result_visitSplit] at h
  simp only [visitSplit, h]
  exact (z.finds_partitions batchSize split t p).adds

/-- Unless a search fails, what is kept of it are the equations of the splits that it finished. -/
theorem keptEquations_visitTarget {batchSize : Nat} {target : Name} {t : Token}
    (h : (z.visitTarget batchSize target t).result = .ok () ∨
      (z.visitTarget batchSize target t).result = .error .cancelled) :
    keptEquations (z.visitTarget batchSize target t) =
      ((splits z.algebra.table target z.identity.degrees).finished
        (z.visitSplit batchSize) t .start).flatMap z.equationsOf := by
  have hrun := Walk.forEach_finished (z.visitSplit batchSize)
    (Q := fun p l => p.equations.toList = l.flatMap z.equationsOf ∧ p.completed = p.equations.size)
    (P := fun p l => p.equations.toList.take p.completed = l.flatMap z.equationsOf)
    (fun p l hp => by rw [hp.2, Array.size_eq_length_toList, List.take_length, hp.1])
    (fun split t p l hp hr => by
      obtain ⟨he, hc⟩ := visitSplit_eq_ok hr
      rw [he, hp.1, List.flatMap_append, List.flatMap_singleton]
      exact ⟨rfl, hc⟩)
    (fun split t p l e hp hr => by
      obtain ⟨more, hmore⟩ := visitSplit_eq_error hr
      rw [hmore.completed, hmore.equations, hp.2, Array.size_eq_length_toList, List.take_left, hp.1])
    (splits z.algebra.table target z.identity.degrees) t (s := .start) (l := []) ⟨rfl, rfl⟩
  rw [List.nil_append] at hrun
  rcases h with h | h
  · rw [keptEquations, h]
    exact (hrun.2 h).1
  · rw [keptEquations, h]
    exact hrun.1

end Linearization

/-! ## Outcomes -/

section
variable (e : Identity) (target : Name) (a : PartialAlgebra) (config : Config)

/-- The splits that a run for one identity finishes, in order. -/
def searched (t : Token) : List (List Name) :=
  if !a.table.contains target then []
  else
    match Linearization.ofIdentity e a with
    | .error _ => []
    | .ok z => (splits a.table target e.degrees).finished (z.visitSplit config.batchSize) t .start

/-- The equations of a split for one identity. -/
def splitEquations (split : List Name) : List Equation :=
  match Linearization.ofIdentity e a with
  | .error _ => []
  | .ok z => z.equationsOf split

/-- A run fails at once, or it is a search. -/
theorem generate_cases :
    (∃ f, f ≠ .cancelled ∧ ∀ (config : Config) (t : Token),
      generate e target a config t = (.ofResult (.error f) [] .zero, t) ∧
        searched e target a config t = []) ∨
    ∃ z, Linearization.ofIdentity e a = .ok z ∧ z.identity = e ∧ z.algebra = a ∧
      ∀ (config : Config) (t : Token), generate e target a config t =
          (.ofResult (z.visitTarget config.batchSize target t).result
              (keptEquations (z.visitTarget config.batchSize target t))
              (z.visitTarget config.batchSize target t).state.stats,
            (z.visitTarget config.batchSize target t).token) ∧
        searched e target a config t =
          (splits a.table target e.degrees).finished (z.visitSplit config.batchSize) t .start := by
  by_cases ht : a.table.contains target = true
  · cases hz : Linearization.ofIdentity e a with
    | error f =>
      obtain rfl := Linearization.ofIdentity_eq_error hz
      refine .inl ⟨.exhausted .permutationList, by simp, fun config t => ?_⟩
      simp only [generate, searched, ht, hz]
      exact ⟨rfl, rfl⟩
    | ok z =>
      obtain ⟨he, ha, -⟩ := Linearization.ofIdentity_eq_ok hz
      refine .inr ⟨z, rfl, he, ha, fun config t => ⟨generate_eq_search ht hz, ?_⟩⟩
      simp only [searched, ht, hz]
      rfl
  · refine .inl ⟨.unknownTarget target, by simp, fun config t => ?_⟩
    simp only [generate, searched, ht]
    exact ⟨rfl, rfl⟩

/-- A run makes a fixed number of polls, and the more are granted, the more splits it finishes. -/
theorem polls_generate : ∃ n,
    Polls (fun o : Outcome => o.status = .cancelled) (generate e target a config ·) n ∧
      Grows (searched e target a config) n := by
  rcases generate_cases e target a with ⟨f, -, hf⟩ | ⟨z, -, rfl, rfl, hz⟩
  · exact ⟨0, (Polls.pure _).congr fun t => (hf config t).1,
      Grows.nil.congr fun t => (hf config t).2⟩
  · obtain ⟨n, hpolls, hgrows⟩ := z.polls_visitTarget config.batchSize target
    let ends : Except Failure Unit × Progress → Outcome := fun r =>
      .ofResult r.1 (keptEquations ⟨r.1, .unlimited, r.2⟩) r.2.stats
    exact ⟨n, (hpolls.map ends fun r hr => Outcome.cancelled_ofResult.2 hr).congr
      fun t => (hz config t).1, hgrows.congr fun t => (hz config t).2⟩

variable {e target a config}

/-- A run that does not fail returns the equations of the splits that it finishes, and it finishes
all of them if it comes to its end. -/
theorem generate_eq_searched {t : Token}
    (h : (generate e target a config t).1.status.IsFinished ∨
      (generate e target a config t).1.status = .cancelled) :
    (generate e target a config t).1.equations =
        (searched e target a config t).flatMap (splitEquations e a) ∧
      ((generate e target a config t).1.status.IsFinished →
        searched e target a config t = (splits a.table target e.degrees).toList) := by
  rcases generate_cases e target a with ⟨f, hcancelled, hf⟩ | ⟨z, hz, rfl, rfl, hrun⟩
  · rw [(hf config t).1, Outcome.isFinished_ofResult, Outcome.cancelled_ofResult] at h
    rcases h with h | h
    · cases h
    · exact absurd (Except.error.inj h) hcancelled
  · rw [(hrun config t).1, Outcome.isFinished_ofResult, Outcome.cancelled_ofResult] at h
    rw [(hrun config t).1, (hrun config t).2, Outcome.isFinished_ofResult,
      Outcome.equations_ofResult h]
    have hsplit : splitEquations z.identity z.algebra = z.equationsOf := by
      funext split
      rw [splitEquations, hz]
    rw [hsplit]
    exact ⟨Linearization.keptEquations_visitTarget h, Walk.finished_eq_toList⟩

end

/-! ## Several identities -/

section
variable (target : Name) (a : PartialAlgebra) (config : Config)

/-- The splits that a run for several identities finishes, each with its identity. -/
def searchedFrom : List Identity → Token → List (Identity × List Name)
  | [], _ => []
  | e :: rest, t =>
    let (outcome, t') := generate e target a config t
    (searched e target a config t).map (e, ·) ++
      match outcome.status with
      | .complete | .empty => searchedFrom rest t'
      | _ => []

/-- The splits of all identities, one identity after the other. -/
def allSplits (identities : List Identity) : List (Identity × List Name) :=
  identities.flatMap fun e => (splits a.table target e.degrees).toList.map (e, ·)

section
variable {target a config} {e : Identity} {t : Token} (rest : List Identity)
  (equations : Array Equation) (stats : Stats)

/-- A run goes on with the next identity if that for the first one comes to its end. -/
theorem generateFrom_of_isFinished (h : (generate e target a config t).1.status.IsFinished) :
    generateFrom target a config (e :: rest) t equations stats =
        generateFrom target a config rest (generate e target a config t).2
          (equations ++ (generate e target a config t).1.equations)
          (stats.add (generate e target a config t).1.stats) ∧
      searchedFrom target a config (e :: rest) t =
        (searched e target a config t).map (e, ·) ++
          searchedFrom target a config rest (generate e target a config t).2 := by
  rcases h with h | h <;> simp only [generateFrom, searchedFrom, h, and_self]

/-- Otherwise it ends as that one does. -/
theorem generateFrom_of_not_isFinished (h : ¬ (generate e target a config t).1.status.IsFinished) :
    generateFrom target a config (e :: rest) t equations stats =
        (⟨(generate e target a config t).1.status,
          (equations ++ (generate e target a config t).1.equations).toList,
          stats.add (generate e target a config t).1.stats⟩, (generate e target a config t).2) ∧
      searchedFrom target a config (e :: rest) t = (searched e target a config t).map (e, ·) := by
  unfold Status.IsFinished at h
  cases hstatus : (generate e target a config t).1.status with
  | complete => exact absurd (.inl hstatus) h
  | empty => exact absurd (.inr hstatus) h
  | cancelled => simp only [generateFrom, searchedFrom, hstatus, List.append_nil, and_self]
  | failed f => simp only [generateFrom, searchedFrom, hstatus, List.append_nil, and_self]

end

/-- A run for several identities makes a fixed number of polls, too. -/
theorem polls_generateFrom (identities : List Identity) (equations : Array Equation)
    (stats : Stats) : ∃ n, Polls (fun o : Outcome => o.status = .cancelled)
      (generateFrom target a config identities · equations stats) n ∧
        Grows (searchedFrom target a config identities) n := by
  induction identities generalizing equations stats with
  | nil => exact ⟨0, .pure _, .nil⟩
  | cons e rest ih =>
    -- the next identity is taken with the token that the first one leaves, if that one is finished
    let next : Outcome → Token → Outcome × Token := fun o t =>
      match o.status with
      | .complete | .empty =>
        generateFrom target a config rest t (equations ++ o.equations) (stats.add o.stats)
      | status => (⟨status, (equations ++ o.equations).toList, stats.add o.stats⟩, t)
    let more : Outcome → Token → List (Identity × List Name) := fun o t =>
      match o.status with
      | .complete | .empty => searchedFrom target a config rest t
      | _ => []
    obtain ⟨n, hpolls, hgrows⟩ := polls_generate e target a config
    obtain ⟨m, hpolls', hgrows'⟩ : ∃ m, Polls (fun o : Outcome => o.status = .cancelled)
        (next (generate e target a config .unlimited).1) m ∧
        Grows (more (generate e target a config .unlimited).1) m := by
      simp only [next, more]
      cases (generate e target a config .unlimited).1.status with
      | complete => exact ih _ _
      | empty => exact ih _ _
      | cancelled => exact ⟨0, .pure _, .nil⟩
      | failed f => exact ⟨0, .pure _, .nil⟩
    refine ⟨n + m, (hpolls.bind (g := next) hpolls' fun o t ho => ?_).congr fun t => ?_,
      ((hgrows.map (e, ·)).bind more hpolls hgrows' fun o t ho => ?_).congr fun t => ?_⟩
    · simp only [next, ho]
    · cases hstatus : (generate e target a config t).1.status <;>
        simp only [generateFrom, next, hstatus]
    · simp only [more, ho]
    · simp only [searchedFrom, more]

variable {target a config}

/-- A run for several identities that does not fail returns, in addition to what was found before,
the equations of the splits that it finishes; it finishes all of them if it comes to its end. -/
theorem generateFrom_eq_searched {identities : List Identity} {t : Token}
    {equations : Array Equation} {stats : Stats}
    (h : (generateFrom target a config identities t equations stats).1.status.IsFinished ∨
      (generateFrom target a config identities t equations stats).1.status = .cancelled) :
    (generateFrom target a config identities t equations stats).1.equations =
        equations.toList ++ (searchedFrom target a config identities t).flatMap
          (fun b => splitEquations b.1 a b.2) ∧
      ((generateFrom target a config identities t equations stats).1.status.IsFinished →
        searchedFrom target a config identities t = allSplits target a identities) := by
  induction identities generalizing t equations stats with
  | nil =>
    refine ⟨?_, fun _ => rfl⟩
    simp only [generateFrom, searchedFrom, List.flatMap_nil, List.append_nil]
    rfl
  | cons e rest ih =>
    by_cases hfinished : (generate e target a config t).1.status.IsFinished
    · obtain ⟨hrun, hsearched⟩ := generateFrom_of_isFinished rest equations stats hfinished
      obtain ⟨he, hs⟩ := generate_eq_searched (.inl hfinished)
      rw [hrun] at h ⊢
      obtain ⟨hrest, hall⟩ := ih h
      rw [hsearched]
      refine ⟨?_, fun h => ?_⟩
      · rw [hrest, he]
        simp [List.flatMap_map]
      · rw [hall h, hs hfinished]
        rfl
    · obtain ⟨hrun, hsearched⟩ := generateFrom_of_not_isFinished rest equations stats
        hfinished
      rw [hrun] at h ⊢
      have hcancelled := h.resolve_left hfinished
      obtain ⟨he, -⟩ := generate_eq_searched (.inr hcancelled)
      rw [hsearched, he]
      refine ⟨?_, fun h => absurd h hfinished⟩
      simp [List.flatMap_map]

end

/-! ## Budgets -/

/-- How a run that makes `n` polls depends on its budget of polls. With `n` polls or more it is the
same as without a limit, and leaves the rest; with fewer it is cancelled. If it comes to its end
without a limit, it returns the equations of all `blocks`; with any budget it returns those of the
blocks that it has searched, which are the first of all blocks, and with more polls it returns these
and more. -/
structure CutByBudget {β : Type} (run : Token → Outcome × Token) (searched : Token → List β)
    (blocks : List β) (equationsOf : β → List Equation) (n : Nat) : Prop where
  enough : ∀ k, n ≤ k →
    run (.ofBudget (some k)) = ((run .unlimited).1, .ofBudget (some (k - n)))
  short : ∀ k < n, (run (.ofBudget (some k))).1.status = .cancelled
  whole : (run .unlimited).1.status.IsFinished →
    (run .unlimited).1.equations = blocks.flatMap equationsOf
  cut : (run .unlimited).1.status.IsFinished → ∀ k,
    searched (.ofBudget (some k)) <+: blocks ∧
      (run (.ofBudget (some k))).1.equations =
        (searched (.ofBudget (some k))).flatMap equationsOf
  mono : (run .unlimited).1.status.IsFinished → ∀ k k', k ≤ k' →
    (run (.ofBudget (some k))).1.equations <+: (run (.ofBudget (some k'))).1.equations

/-- A run that comes to its end with a token that grants every poll does so with any budget, unless it
is cancelled. -/
theorem Polls.isFinished_or_cancelled {run : Token → Outcome × Token} {n : Nat}
    (hpolls : Polls (fun o : Outcome => o.status = .cancelled) run n)
    (h : (run .unlimited).1.status.IsFinished) (k : Nat) :
    (run (.ofBudget (some k))).1.status.IsFinished ∨
      (run (.ofBudget (some k))).1.status = .cancelled := by
  by_cases hk : k < n
  · exact .inr (hpolls.short k hk)
  · rw [hpolls.enough k (Nat.not_lt.1 hk)]
    exact .inl h

/-- A run that makes a fixed number of polls and returns the equations of what it has searched. -/
theorem CutByBudget.of {β : Type} {run : Token → Outcome × Token} {searched : Token → List β}
    {blocks : List β} {equationsOf : β → List Equation} {n : Nat}
    (hpolls : Polls (fun o : Outcome => o.status = .cancelled) run n) (hgrows : Grows searched n)
    (h : ∀ t, (run t).1.status.IsFinished ∨ (run t).1.status = .cancelled →
      (run t).1.equations = (searched t).flatMap equationsOf ∧
        ((run t).1.status.IsFinished → searched t = blocks)) :
    CutByBudget run searched blocks equationsOf n := by
  refine ⟨hpolls.enough, hpolls.short, fun hf => ?_, fun hf k => ⟨?_, ?_⟩, fun hf k k' hk => ?_⟩
  · rw [(h _ (.inl hf)).1, (h _ (.inl hf)).2 hf]
  · -- a greater budget than needed searches all blocks
    have hmono := hgrows.mono k (k + n) (Nat.le_add_right k n)
    rwa [hgrows.enough _ (Nat.le_add_left n k), (h _ (.inl hf)).2 hf] at hmono
  · exact (h _ (hpolls.isFinished_or_cancelled hf k)).1
  · rw [(h _ (hpolls.isFinished_or_cancelled hf k)).1,
      (h _ (hpolls.isFinished_or_cancelled hf k')).1]
    exact (hgrows.mono k k' hk).flatMap _

section
variable (target : Name) (a : PartialAlgebra) (config : Config)

/-- The splits that a run for the identities of small degree finishes, each with its identity. -/
def searchedAll (identities : List Identity) (t : Token) : List (Identity × List Name) :=
  match a.table.degree target with
  | .error _ => []
  | .ok d => searchedFrom target a config (identities.filter (·.degree ≤ d)) t

variable {target a} in
/-- An identity of a degree above the target's has no splits. -/
theorem allSplits_filter {d : Nat} (hd : a.table.degree target = .ok d)
    (identities : List Identity) :
    allSplits target a (identities.filter (·.degree ≤ d)) = allSplits target a identities := by
  have hnone : ∀ e : Identity, ¬ e.degree ≤ d → (splits a.table target e.degrees).toList = [] := by
    intro e he
    obtain ⟨ht, rfl⟩ := Multidegree.Table.degree_eq_ok_iff.1 hd
    refine List.eq_nil_iff_forall_not_mem.2 fun split hsplit => he ?_
    rw [Identity.degree, total_eq_sum]
    exact Search.sum_le_of_mem_splits ht hsplit
  induction identities with
  | nil => rfl
  | cons e rest ih =>
    rw [List.filter_cons]
    simp only [allSplits, List.flatMap_cons] at ih ⊢
    split
    · rw [List.flatMap_cons, ih]
    · rename_i he
      rw [ih, hnone e (by simpa using he)]
      rfl

/-- A run is cut between two splits: that for one identity, and that for several ones, where the
splits of an identity come after all splits of the earlier ones. -/
theorem generate_cutByBudget :
    (∀ e : Identity, ∃ n, CutByBudget (generate e target a config ·) (searched e target a config)
      (splits a.table target e.degrees).toList (splitEquations e a) n) ∧
    ∀ identities : List Identity, ∃ n, CutByBudget (generateAll identities target a config ·)
      (searchedAll target a config identities) (allSplits target a identities)
      (fun b => splitEquations b.1 a b.2) n := by
  refine ⟨fun e => ?_, fun identities => ?_⟩
  · obtain ⟨n, hpolls, hgrows⟩ := polls_generate e target a config
    exact ⟨n, .of hpolls hgrows fun t => generate_eq_searched⟩
  · unfold generateAll searchedAll
    cases hd : a.table.degree target with
    | error f =>
      refine ⟨0, .of (.pure _) .nil fun t h => ?_⟩
      rcases h with h | h
      · cases Outcome.isFinished_ofResult.1 h
      · cases h
    | ok d =>
      obtain ⟨n, hpolls, hgrows⟩ :=
        polls_generateFrom target a config (identities.filter (·.degree ≤ d)) #[] .zero
      rw [← allSplits_filter hd]
      exact ⟨n, .of hpolls hgrows fun t => generateFrom_eq_searched⟩

end

end Nonassoc
