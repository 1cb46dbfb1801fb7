import Nonassoc.Proofs.Cancellation
import Nonassoc.Proofs.Histories

/-!
# Runs one after the other

`RunsInTurn` takes the runs for several identities one after the other with the same token, up to the
first one that is cancelled or fails. Their outcomes are put together by `Outcome.Joins`: all
equations, the sums of all counts, and the status of the run that stopped them. A run for several
identities does just that with those whose degree is at most the target's, and every other identity
would find nothing and not even poll. Main result: `generateAll_succession`.
-/

namespace Nonassoc

open Multidegree (Name)
open Search (splits)

/-! ## Counts of equations -/

/-- The sums of all counts. -/
def Stats.sum (l : List Stats) : Stats where
  subtypes := total (l.map Stats.subtypes)
  partitions := total (l.map Stats.partitions)
  substitutions := total (l.map Stats.substitutions)
  permutations := total (l.map Stats.permutations)
  equations := total (l.map Stats.equations)
  basisPairs := total (l.map Stats.basisPairs)

/-- The counts are those of the given equations. -/
structure Stats.Counts (s : Stats) (equations : List Equation) : Prop where
  length : s.equations = equations.length
  size : s.basisPairs = total (equations.map Equation.size)

namespace Stats

theorem Counts.add {s s' : Stats} {equations equations' : List Equation} (h : s.Counts equations)
    (h' : s'.Counts equations') : (s.add s').Counts (equations ++ equations') where
  length := by simp only [Stats.add, h.length, h'.length, List.length_append]
  size := by simp only [Stats.add, h.size, h'.size, List.map_append, total_append]

end Stats

namespace Outcome

/-- Counts of equations that are right are not changed. -/
theorem ofEquations_of_counts (status : Status) {equations : List Equation} {stats : Stats}
    (h : stats.Counts equations) : ofEquations status equations stats = ⟨status, equations, stats⟩ := by
  simp only [ofEquations, ← h.length, ← h.size]

theorem counts_ofResult (result : Except Failure Unit) (equations : List Equation) (stats : Stats) :
    (ofResult result equations stats).stats.Counts (ofResult result equations stats).equations := by
  unfold ofResult
  split
  · exact ⟨rfl, rfl⟩
  · exact ⟨rfl, rfl⟩
  · exact ⟨rfl, rfl⟩

theorem equations_of_failed {result : Except Failure Unit} {equations : List Equation} {stats : Stats}
    {f : Failure} (h : (ofResult result equations stats).status = .failed f) :
    (ofResult result equations stats).equations = [] := by
  obtain rfl := eq_error_of_status_ofResult h
  cases f with
  | cancelled => cases h
  | _ => rfl

end Outcome

/-! ## One run -/

/-- Visits succeed from the first item on. -/
theorem Walk.finished_initial {α σ : Type} {visitor : α → Token → σ → Run σ} (w : Walk α) (t : Token)
    (s : σ) : finished visitor w t s <+: w.toList := by
  induction w generalizing t s with
  | done => exact List.prefix_rfl
  | fail e => exact List.prefix_rfl
  | visit a =>
    simp only [finished, toList_visit]
    split
    · exact List.prefix_rfl
    · exact List.nil_prefix
  | poll rest ih =>
    simp only [finished, toList_poll]
    split
    · exact ih () _ _
    · exact List.nil_prefix
  | fork v w hv hw =>
    simp only [finished]
    split
    · rename_i hr
      rw [finished_eq_toList hr, toList_fork w (failure?_of_forEach hr)]
      exact (List.prefix_append_right_inj _).2 (hw () _ _)
    · rw [List.append_nil]
      refine (hv _ _).trans ?_
      simp only [toList]
      split
      · exact List.prefix_rfl
      · exact List.prefix_append _ _

section
variable {e : Identity} {target : Name} {a : PartialAlgebra} {config : Config} {t : Token}

theorem exists_ofResult (e : Identity) (target : Name) (a : PartialAlgebra) (config : Config)
    (t : Token) : ∃ result equations stats,
      (generate e target a config t).1 = .ofResult result equations stats := by
  rcases generate_cases e target a with ⟨f, -, hf⟩ | ⟨z, -, -, -, hrun⟩
  · rw [(hf config t).1]
    exact ⟨_, _, _, rfl⟩
  · rw [(hrun config t).1]
    exact ⟨_, _, _, rfl⟩

theorem counts_generate :
    (generate e target a config t).1.stats.Counts (generate e target a config t).1.equations := by
  obtain ⟨result, equations, stats, h⟩ := exists_ofResult e target a config t
  rw [h]
  exact Outcome.counts_ofResult _ _ _

/-- A run that fails returns no equation. -/
theorem equations_of_failed {f : Failure} (h : (generate e target a config t).1.status = .failed f) :
    (generate e target a config t).1.equations = [] := by
  obtain ⟨result, equations, stats, he⟩ := exists_ofResult e target a config t
  rw [he] at h ⊢
  exact Outcome.equations_of_failed h

/-- The splits that a run finishes are the first ones. -/
theorem searched_initial :
    searched e target a config t <+: (splits a.table target e.degrees).toList := by
  rcases generate_cases e target a with ⟨f, -, hf⟩ | ⟨z, -, -, -, hrun⟩
  · rw [(hf config t).2]
    exact List.nil_prefix
  · rw [(hrun config t).2]
    exact Walk.finished_initial _ _ _

/-- An identity of a degree above the target's imposes nothing, and its run polls nothing. -/
theorem generate_of_degree_lt {d : Nat} (hd : a.table.degree target = .ok d) (h : d < e.degree)
    {z : Linearization} (hz : Linearization.ofIdentity e a = .ok z) :
    generate e target a config t = (⟨.empty, [], .zero⟩, t) := by
  obtain ⟨ht, rfl⟩ := Multidegree.Table.degree_eq_ok_iff.1 hd
  obtain ⟨rfl, rfl, -⟩ := Linearization.ofIdentity_eq_ok hz
  have hsplits : splits z.algebra.table target z.identity.degrees = .done := by
    rw [Identity.degree, total_eq_sum] at h
    exact Search.splits_eq_done ht (.inr h)
  rw [generate_eq_search ht hz]
  simp only [Linearization.visitTarget, hsplits, Walk.forEach]
  rfl

end

/-! ## Several runs -/

section
variable (target : Name) (a : PartialAlgebra) (config : Config)

/-- The runs for several identities in turn, each with the token that the one before it has left, up
to the first one that is cancelled or fails: their outcomes, and the token at the end. -/
inductive RunsInTurn : List Identity → Token → List Outcome → Token → Prop
  | done (t : Token) : RunsInTurn [] t [] t
  | stop {e : Identity} {t : Token} (rest : List Identity) :
      ¬ (generate e target a config t).1.status.IsFinished →
      RunsInTurn (e :: rest) t [(generate e target a config t).1] (generate e target a config t).2
  | next {e : Identity} {rest : List Identity} {t t' : Token} {outcomes : List Outcome} :
      (generate e target a config t).1.status.IsFinished →
      RunsInTurn rest (generate e target a config t).2 outcomes t' →
      RunsInTurn (e :: rest) t ((generate e target a config t).1 :: outcomes) t'

variable {target a config}

/-- What a run gives to the equations of several: all that its identity imposes if it comes to its
end, those of the splits that it has finished, from the first one on, if it is cancelled, and nothing
if it fails. -/
structure Outcome.Contributes (target : Name) (a : PartialAlgebra) (e : Identity) (o : Outcome) :
    Prop where
  finished : o.status.IsFinished →
    o.equations = (splits a.table target e.degrees).toList.flatMap (splitEquations e a)
  cancelled : o.status = .cancelled → ∃ done, done <+: (splits a.table target e.degrees).toList ∧
    o.equations = done.flatMap (splitEquations e a)
  failed : ∀ f, o.status = .failed f → o.equations = []

theorem contributes_generate (e : Identity) (t : Token) :
    (generate e target a config t).1.Contributes target a e where
  finished h := by
    obtain ⟨hequations, hall⟩ := generate_eq_searched (.inl h)
    rw [hequations, hall h]
  cancelled h := ⟨_, searched_initial, (generate_eq_searched (.inr h)).1⟩
  failed _ h := equations_of_failed h

end

/-- The outcome of several runs: all their equations, the sums of their counts, and the status of the
one that did not come to its end; if they all did, it tells whether there is any equation. -/
structure Outcome.Joins (outcomes : List Outcome) (o : Outcome) : Prop where
  equations : o.equations = outcomes.flatMap Outcome.equations
  stats : o.stats = Stats.sum (outcomes.map Outcome.stats)
  stopped : ∀ o' ∈ outcomes, ¬ o'.status.IsFinished → o.status = o'.status
  finished : (∀ o' ∈ outcomes, o'.status.IsFinished) →
    o.status = if o.equations = [] then .empty else .complete

/-- Two runs that came to their end can be put together first. -/
theorem Outcome.Joins.of_merged {first second o : Outcome} {outcomes : List Outcome}
    (h : o.Joins (⟨first.status, first.equations ++ second.equations,
      first.stats.add second.stats⟩ :: outcomes))
    (hsecond : second.status.IsFinished) : o.Joins (first :: second :: outcomes) where
  equations := by
    rw [h.equations]
    simp only [List.flatMap_cons, List.append_assoc]
  stats := by
    rw [h.stats]
    simp [Stats.sum, Stats.add, Nat.add_assoc]
  stopped := by
    intro o' ho' hstatus
    rcases List.mem_cons.1 ho' with rfl | ho'
    · have := h.stopped _ List.mem_cons_self
      exact this hstatus
    rcases List.mem_cons.1 ho' with rfl | ho'
    · exact absurd hsecond hstatus
    · exact h.stopped o' (List.mem_cons_of_mem _ ho') hstatus
  finished := by
    intro hall
    refine h.finished fun o' ho' => ?_
    rcases List.mem_cons.1 ho' with rfl | ho'
    · exact hall first List.mem_cons_self
    · exact hall o' (List.mem_cons_of_mem _ (List.mem_cons_of_mem _ ho'))

section
variable {target : Name} {a : PartialAlgebra} {config : Config}

/-- A run for several identities takes the runs for them in turn, and adds what they find to what was
found before. -/
theorem exists_runsInTurn (identities : List Identity) (t : Token) {equations : Array Equation}
    {stats : Stats} (h : stats.Counts equations.toList) :
    ∃ outcomes, RunsInTurn target a config identities t outcomes
        (generateFrom target a config identities t equations stats).2 ∧
      (generateFrom target a config identities t equations stats).1.Joins
        (⟨.empty, equations.toList, stats⟩ :: outcomes) := by
  induction identities generalizing t equations stats with
  | nil =>
    refine ⟨[], .done t, ?_⟩
    simp only [generateFrom, Outcome.ofResult, Outcome.ofEquations_of_counts _ h]
    refine ⟨by simp, ?_, by simp [Status.IsFinished], fun _ => by simp⟩
    simp [Stats.sum]
  | cons e rest ih =>
    have hcounts : (stats.add (generate e target a config t).1.stats).Counts
        (equations ++ (generate e target a config t).1.equations).toList := by
      rw [Array.toList_appendList]
      exact h.add counts_generate
    by_cases hfinished : (generate e target a config t).1.status.IsFinished
    · obtain ⟨outcomes, hruns, hjoins⟩ := ih (generate e target a config t).2 hcounts
      rw [(generateFrom_of_isFinished rest equations stats hfinished).1]
      rw [Array.toList_appendList] at hjoins
      exact ⟨_, .next hfinished hruns, hjoins.of_merged hfinished⟩
    · rw [(generateFrom_of_not_isFinished rest equations stats hfinished).1]
      refine ⟨_, .stop rest hfinished, by simp, ?_, ?_, ?_⟩
      · simp [Stats.sum, Stats.add]
      · intro o ho hstatus
        rcases List.mem_cons.1 ho with rfl | ho
        · exact absurd (.inr rfl) hstatus
        · rw [List.mem_singleton.1 ho]
      · exact fun hall => absurd (hall _ (List.mem_cons_of_mem _ List.mem_cons_self)) hfinished

/-- Nothing was found before the first run. -/
theorem Outcome.Joins.of_empty {o : Outcome} {outcomes : List Outcome}
    (h : o.Joins (⟨.empty, [], .zero⟩ :: outcomes)) : o.Joins outcomes where
  equations := h.equations
  stats := by
    rw [h.stats]
    simp [Stats.sum, Stats.zero]
  stopped o' ho' := h.stopped o' (List.mem_cons_of_mem _ ho')
  finished hall := h.finished (List.forall_mem_cons.2 ⟨.inr rfl, hall⟩)

end

/-- A run for several identities. On an unknown target it fails at once: it finds nothing, counts
nothing and polls nothing. Otherwise it takes the runs for the identities of at most the target's
degree in turn, with its one token, and its outcome joins theirs, each of which contributes what it
has found. The identities that are passed over would impose nothing: if its matchings fit in memory,
the run for such an identity finds, counts and polls nothing. -/
theorem generateAll_succession (identities : List Identity) (target : Name) (a : PartialAlgebra)
    (config : Config) (t : Token) :
    (a.table.contains target = false →
      generateAll identities target a config t =
        (⟨.failed (.unknownTarget target), [], .zero⟩, t)) ∧
    ∀ d, a.table.degree target = .ok d →
      (∃ outcomes,
        RunsInTurn target a config (identities.filter (·.degree ≤ d)) t outcomes
          (generateAll identities target a config t).2 ∧
        (generateAll identities target a config t).1.Joins outcomes) ∧
      ∀ (e : Identity) (t' : Token),
        (generate e target a config t').1.Contributes target a e ∧
        (d < e.degree → (∃ z, Linearization.ofIdentity e a = .ok z) →
          generate e target a config t' = (⟨.empty, [], .zero⟩, t')) := by
  refine ⟨fun ht => ?_, fun d hd => ⟨?_, fun e t' => ⟨contributes_generate e t', ?_⟩⟩⟩
  · unfold generateAll
    cases hd : a.table.degree target with
    | error f => rfl
    | ok d =>
      rw [(Multidegree.Table.degree_eq_ok_iff.1 hd).1] at ht
      cases ht
  · simp only [generateAll, hd]
    have hnone : Stats.zero.Counts (#[] : Array Equation).toList := ⟨rfl, rfl⟩
    obtain ⟨outcomes, hruns, hjoins⟩ := exists_runsInTurn (identities.filter (·.degree ≤ d)) t hnone
    exact ⟨outcomes, hruns, hjoins.of_empty⟩
  · intro h hz
    obtain ⟨z, hz⟩ := hz
    exact generate_of_degree_lt hd h hz

/-- The square and the cube at the square of a generator, where the cube is passed over, and at a
number that is not a name. -/
theorem generateAll_succession_square :
    ∃ (a : PartialAlgebra) (square cube : Identity), a.Built ∧
      Multidegree.Table.ofTarget ⟨[2]⟩ = .ok a.table ∧
      Identity.ofWords [(1, .product (.letter 'x') (.letter 'x'))] = .ok square ∧
      Identity.ofWords [(1, .product (.product (.letter 'x') (.letter 'x')) (.letter 'x'))] =
        .ok cube ∧
      a.table.contains 3 = false ∧
      generateAll [square, cube] 3 a .standard (.ofBudget (some 5)) =
        (⟨.failed (.unknownTarget 3), [], .zero⟩, .ofBudget (some 5)) ∧
      a.table.degree 2 = .ok 2 ∧
      (∃ outcomes,
        RunsInTurn 2 a .standard ([square, cube].filter (·.degree ≤ 2)) (.ofBudget (some 5)) outcomes
          (generateAll [square, cube] 2 a .standard (.ofBudget (some 5))).2 ∧
        (generateAll [square, cube] 2 a .standard (.ofBudget (some 5))).1.Joins outcomes) ∧
      2 < cube.degree ∧ (∃ z, Linearization.ofIdentity cube a = .ok z) ∧
      generate cube 2 a .standard (.ofBudget (some 5)) =
        (⟨.empty, [], .zero⟩, .ofBudget (some 5)) := by
  obtain ⟨t, b, ht, hb, hc, hd⟩ : ∃ t b, Multidegree.Table.ofTarget ⟨[2]⟩ = .ok t ∧
      (Basis.empty t).push none 1 = .ok b ∧ t.contains 3 = false ∧ t.degree 2 = .ok 2 :=
    ⟨_, _, rfl, rfl, by decide, rfl⟩
  let a : PartialAlgebra := ⟨.standard, t, b, .empty⟩
  let square : Identity := ⟨['x'], [2], [⟨1, .product (.leaf 0 0) (.leaf 0 1)⟩]⟩
  let cube : Identity :=
    ⟨['x'], [3], [⟨1, .product (.product (.leaf 0 0) (.leaf 0 1)) (.leaf 0 2)⟩]⟩
  have hdegree : 2 < cube.degree := by decide
  have hz : ∃ z, Linearization.ofIdentity cube a = .ok z := ⟨_, rfl⟩
  have hknown := (generateAll_succession [square, cube] 2 a .standard (.ofBudget (some 5))).2 2 hd
  exact ⟨a, square, cube, .push (.empty _ _) hb, ht, rfl, rfl, hc,
    (generateAll_succession [square, cube] 3 a .standard (.ofBudget (some 5))).1 hc, hd, hknown.1,
    hdegree, hz, (hknown.2 cube _).2 hdegree hz⟩

end Nonassoc
