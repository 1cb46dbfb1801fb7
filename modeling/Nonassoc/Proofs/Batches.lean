import Mathlib.Algebra.Order.Floor.Div
import Mathlib.GroupTheory.GroupAction.Ring
import Nonassoc.Proofs.Cancellation
import Nonassoc.Proofs.Failures

/-!
# Batches of matchings

`Linearization.flatEquation` evaluates all matchings of a substitution in one go. Batches give the
same, whatever their size, if no poll is refused (`equation_uncancelled`), and poll once for each
batch (`polls_equation`). So with a token that grants every poll the batch size does not change a run,
and with a limited one a run with larger batches, which polls less often, finishes at least the same
splits. Main result: `generate_batchSize`.
-/

namespace Nonassoc

open Multidegree (Name)
open Search (Partition Substitution splits partitions)
open Walk (Run)

namespace Linearization

/-! ## One substitution -/

/-- The equation at a substitution, without batches: the pairs under every matching in order, nothing
if there is no pair, or the error of the first matching that cannot be evaluated. -/
def flatEquation (z : Linearization) (s : Substitution) : Except Failure (Option Equation) := do
  let pairs := (← z.matchings.toList.mapM (z.evaluate s)).flatten
  return if pairs.isEmpty then none else some ⟨pairs⟩

variable {z : Linearization}

/-- Inside a batch, nothing is polled. -/
theorem visitMatching_succ (batchSize : Nat) (s : Substitution) (m : Matching) (t : Token)
    {sum : Sum} {left : Nat} (h : sum.left = left + 1) :
    z.visitMatching batchSize s m t sum = z.addMatching s m t { sum with left } := by
  simp only [visitMatching, h]

/-- A batch begins with a poll. -/
theorem visitMatching_zero (batchSize : Nat) (s : Substitution) (m : Matching) (t : Token)
    {sum : Sum} (h : sum.left = 0) :
    z.visitMatching batchSize s m t sum =
      if t.poll.1 then z.addMatching s m t.poll.2 { sum with left := batchSize - 1 }
      else ⟨.error .cancelled, t.poll.2, sum⟩ := by
  simp only [visitMatching, h]
  rcases t.poll with ⟨_ | _, t⟩ <;> rfl

theorem addMatching_of_evaluate {s : Substitution} {m : Matching} {pairs : List Pair}
    (h : z.evaluate s m = .ok pairs) (t : Token) (sum : Sum) :
    z.addMatching s m t sum = ⟨.ok (), t, { sum with pairs := sum.pairs ++ pairs }⟩ := by
  simp only [addMatching, h]

/-- Where `left` more items are in the batch, one poll for each further batch. -/
theorem ceilDiv_succ (n b : Nat) :
    (n + 1) ⌈/⌉ max b 1 = (n - (b - 1)) ⌈/⌉ max b 1 + 1 := by
  have hb : b - 1 = max b 1 - 1 := by omega
  have hpos : 0 < max b 1 := by omega
  rw [hb]
  generalize max b 1 = c at hpos ⊢
  rw [Nat.ceilDiv_eq_add_pred_div, Nat.ceilDiv_eq_add_pred_div, ← Nat.add_div_right _ hpos]
  by_cases h : c - 1 ≤ n
  · congr 1
    omega
  · rw [Nat.div_eq_of_lt_le (k := 1) (by omega) (by omega),
      Nat.div_eq_of_lt_le (k := 1) (by omega) (by omega)]

theorem polls_matchings (batchSize : Nat) (s : Substitution) {l : List Matching}
    (h : ∀ m ∈ l, ∃ pairs, z.evaluate s m = .ok pairs) (sum : Sum) :
    Run.Polls ((Walk.ofList l).forEach (z.visitMatching batchSize s) · sum)
      ((l.length - sum.left) ⌈/⌉ max batchSize 1) := by
  induction l generalizing sum with
  | nil =>
    rw [List.length_nil, Nat.zero_sub, zero_ceilDiv]
    exact .pure (.ok ()) sum
  | cons m l ih =>
    obtain ⟨⟨pairs, hpairs⟩, hl⟩ := List.forall_mem_cons.1 h
    cases hleft : sum.left with
    | zero =>
      rw [Nat.sub_zero, List.length_cons, ceilDiv_succ]
      refine (Polls.poll (ih hl ⟨sum.pairs ++ pairs, batchSize - 1⟩)
        (r := (.error .cancelled, sum)) rfl).congr fun t => ?_
      simp only [Walk.forEach_ofList_cons, visitMatching_zero batchSize s m _ hleft,
        addMatching_of_evaluate hpairs]
      cases t.poll.1 <;> rfl
    | succ left =>
      rw [List.length_cons, Nat.add_sub_add_right]
      refine (ih hl ⟨sum.pairs ++ pairs, left⟩).congr fun t => ?_
      simp only [Walk.forEach_ofList_cons, visitMatching_succ batchSize s m _ hleft,
        addMatching_of_evaluate hpairs]

section
variable (hm : z.matchings = Nonassoc.matchings z.identity.degrees)
include hm

theorem forEach_matchings (batchSize : Nat) (s : Substitution) (t : Token) (sum : Sum) :
    (Walk.ofList z.matchings.toList).forEach (z.visitMatching batchSize s) t sum =
      z.matchings.forEach (z.visitMatching batchSize s) t sum := by
  rw [hm]
  exact Walk.forEach_ofList (yields_matchings _).failure? (Nonassoc.polls_matchings _) t sum

/-- One poll for each batch, if all matchings can be evaluated. -/
theorem polls_equation {s : Substitution}
    (h : ∀ m ∈ z.matchings.toList, ∃ pairs, z.evaluate s m = .ok pairs) (batchSize : Nat) :
    Polls (· = .error .cancelled) (z.equation batchSize s)
      (z.matchings.toList.length ⌈/⌉ max batchSize 1) := by
  have hpolls := polls_matchings batchSize s h ⟨#[], 0⟩
  let ends : Except Failure Unit × Sum → Except Failure (Option Equation) := fun r =>
    r.1.map fun _ => if r.2.pairs.isEmpty then none else some ⟨r.2.pairs.toList⟩
  refine (Polls.map hpolls ends fun r hr => ?_).congr fun t => ?_
  · simp only [ends, Run.stopped_iff.1 hr]
    rfl
  · simp only [ends, Run.split, equation, forEach_matchings hm]
    cases (z.matchings.forEach (z.visitMatching batchSize s) t ⟨#[], 0⟩).result <;> rfl

omit hm in
/-- The matchings of a list. A token that grants every poll is handed on as it is; any other token has
refused a poll only if it is cancelled at the end. -/
theorem forEach_evaluates (batchSize : Nat) (s : Substitution) (l : List Matching) (t : Token)
    (sum : Sum) :
    (t = .unlimited →
      ((Walk.ofList l).forEach (z.visitMatching batchSize s) t sum).token = .unlimited) ∧
    (((Walk.ofList l).forEach (z.visitMatching batchSize s) t sum).token.cancelled = false →
      match l.mapM (z.evaluate s) with
      | .ok ps =>
        ((Walk.ofList l).forEach (z.visitMatching batchSize s) t sum).result = .ok () ∧
          ((Walk.ofList l).forEach (z.visitMatching batchSize s) t sum).state.pairs.toList =
            sum.pairs.toList ++ ps.flatten
      | .error e =>
        ((Walk.ofList l).forEach (z.visitMatching batchSize s) t sum).result = .error e) := by
  induction l generalizing t sum with
  | nil => exact ⟨id, fun _ => ⟨rfl, (List.append_nil _).symm⟩⟩
  | cons m l ih =>
    rw [Walk.forEach_ofList_cons, List.mapM_cons]
    -- a visit polls the token, or leaves it as it is
    obtain ⟨hlimited, t', ht', hvisit⟩ | ⟨t', left, ht', hvisit⟩ :
        (t ≠ .unlimited ∧ ∃ t', t'.cancelled = true ∧
          z.visitMatching batchSize s m t sum = ⟨.error .cancelled, t', sum⟩) ∨
        ∃ t' left, (t = .unlimited → t' = .unlimited) ∧ z.visitMatching batchSize s m t sum =
          z.addMatching s m t' { sum with left } := by
      cases hleft : sum.left with
      | zero =>
        rw [visitMatching_zero batchSize s m t hleft]
        cases hpoll : t.poll.1 with
        | true => exact .inr ⟨_, _, fun h => by rw [h]; rfl, rfl⟩
        | false =>
          refine .inl ⟨fun h => ?_, _, Token.cancelled_of_poll (Prod.ext hpoll rfl), rfl⟩
          rw [h] at hpoll
          cases hpoll
      | succ left => exact .inr ⟨t, left, id, visitMatching_succ batchSize s m t hleft⟩
    · rw [hvisit]
      exact ⟨fun h => absurd h hlimited, fun h => by cases h.symm.trans ht'⟩
    rw [hvisit]
    cases hm : z.evaluate s m with
    | error e =>
      simp only [addMatching, hm]
      exact ⟨ht', fun _ => rfl⟩
    | ok pairs =>
      rw [addMatching_of_evaluate hm]
      obtain ⟨htoken, hrest⟩ := ih t' ⟨sum.pairs ++ pairs, left⟩
      refine ⟨fun h => htoken (ht' h), fun hc => ?_⟩
      have hrest := hrest hc
      cases hl : l.mapM (z.evaluate s) with
      | error e =>
        rw [hl] at hrest
        exact hrest
      | ok ps =>
        rw [hl] at hrest
        refine ⟨hrest.1, hrest.2.trans ?_⟩
        simp

omit hm in
theorem token_equation (batchSize : Nat) (s : Substitution) (t : Token) :
    (z.equation batchSize s t).2 =
      (z.matchings.forEach (z.visitMatching batchSize s) t ⟨#[], 0⟩).token := by
  unfold equation
  dsimp only
  split <;> rfl

/-- If no poll is refused, batches give what the evaluation in one go gives. -/
theorem equation_uncancelled {batchSize : Nat} {s : Substitution} {t : Token}
    (hc : (z.equation batchSize s t).2.cancelled = false) :
    (z.equation batchSize s t).1 = z.flatEquation s := by
  obtain ⟨-, hrun⟩ := forEach_evaluates (z := z) batchSize s z.matchings.toList t ⟨#[], 0⟩
  rw [forEach_matchings hm, ← token_equation] at hrun
  have hrun := hrun hc
  simp only [equation, flatEquation]
  cases hl : z.matchings.toList.mapM (z.evaluate s) with
  | error e =>
    rw [hl] at hrun
    simp only [hrun]
    rfl
  | ok ps =>
    rw [hl] at hrun
    simp only [hrun.1, ← Array.isEmpty_toList, hrun.2]
    rfl

/-- With a token that grants every poll, batches give what the evaluation in one go gives. -/
theorem equation_unlimited (batchSize : Nat) (s : Substitution) :
    z.equation batchSize s .unlimited = (z.flatEquation s, .unlimited) := by
  obtain ⟨htoken, -⟩ := forEach_evaluates (z := z) batchSize s z.matchings.toList .unlimited ⟨#[], 0⟩
  rw [forEach_matchings hm, ← token_equation] at htoken
  have htoken := htoken rfl
  exact Prod.ext (equation_uncancelled hm (by rw [htoken]; rfl)) htoken

/-! ## Searches -/

variable (z) in
/-- A substitution, with a token that grants every poll. -/
theorem visitSubstitution_unlimited (batchSize : Nat) (s : Substitution) (p : Progress) :
    z.visitSubstitution batchSize s .unlimited p =
      match z.flatEquation s with
      | .ok e => ⟨.ok (), .unlimited, p.countSubstitution.record z.count e⟩
      | .error e => ⟨.error e, .unlimited, p.countSubstitution⟩ := by
  rw [visitSubstitution, equation_unlimited hm]
  cases z.flatEquation s <;> rfl

/-- With tokens that grant every poll, the batch size does not matter. -/
theorem unlimited_visitTarget (batchSize batchSize' : Nat) (target : Name) :
    (z.visitTarget batchSize target .unlimited).Similar
      (fun t t' => t = .unlimited ∧ t' = .unlimited) Eq
      (z.visitTarget batchSize' target .unlimited) := by
  have hkeeps : Progress.Keeps Eq := ⟨congrArg _, congrArg _, congrArg _⟩
  refine similar_visitTarget rfl rfl ?_ hkeeps ?_ target ⟨rfl, rfl⟩ rfl
  · rintro _ _ ⟨rfl, rfl⟩
    exact ⟨rfl, rfl, rfl⟩
  · rintro s _ _ p _ ⟨rfl, rfl⟩ rfl
    rw [z.visitSubstitution_unlimited hm, z.visitSubstitution_unlimited hm]
    cases z.flatEquation s <;> exact ⟨rfl, ⟨rfl, rfl⟩, rfl⟩

/-- A budget that lasts for all batches, and what is left of it. -/
theorem equation_ofBudget {batchSize : Nat} {s : Substitution} {k : Nat} {e : Option Equation}
    (h : (z.equation batchSize s (.ofBudget (some k))).1 = .ok e) :
    z.matchings.toList.length ⌈/⌉ max batchSize 1 ≤ k ∧ ∀ batchSize' k',
      z.matchings.toList.length ⌈/⌉ max batchSize' 1 ≤ k' →
      z.equation batchSize' s (.ofBudget (some k')) =
        (.ok e, .ofBudget (some (k' - z.matchings.toList.length ⌈/⌉ max batchSize' 1))) := by
  obtain ⟨pairs, ⟨ps, hps, -⟩, -⟩ := equation_eq_ok h
  have hevaluate : ∀ m ∈ z.matchings.toList, ∃ pairs, z.evaluate s m = .ok pairs := by
    intro m hmem
    obtain ⟨pairs, -, hpairs⟩ := exists_of_forall₂ hps hmem
    exact ⟨pairs, hpairs⟩
  have hpolls := polls_equation hm hevaluate
  have hk : z.matchings.toList.length ⌈/⌉ max batchSize 1 ≤ k := by
    refine Nat.le_of_not_lt fun hlt => ?_
    cases h.symm.trans ((hpolls batchSize).short k hlt)
  refine ⟨hk, fun batchSize' k' hk' => ?_⟩
  rw [(hpolls batchSize).enough k hk, equation_unlimited hm] at h
  rw [(hpolls batchSize').enough k' hk', equation_unlimited hm, ← h]

section
variable {batchSize batchSize' : Nat} (h : max batchSize 1 ≤ max batchSize' 1)
include h

/-- Larger batches leave more polls. -/
theorem outlasts_visitSubstitution (s : Substitution) {t t' : Token} (ht : t.AtMost t')
    (p : Progress) :
    (z.visitSubstitution batchSize s t p).Outlasts (z.visitSubstitution batchSize' s t' p) := by
  intro hr
  obtain ⟨k, k', hk, rfl, rfl⟩ := ht
  obtain ⟨e, he⟩ : ∃ e, (z.equation batchSize s (.ofBudget (some k))).1 = .ok e := by
    unfold visitSubstitution at hr
    rcases heq : z.equation batchSize s (.ofBudget (some k)) with ⟨f | e, t⟩
    · rw [heq] at hr
      cases hr
    · exact ⟨e, rfl⟩
  obtain ⟨hle, hequation⟩ := equation_ofBudget hm he
  have hle' : z.matchings.toList.length ⌈/⌉ max batchSize' 1 ≤
      z.matchings.toList.length ⌈/⌉ max batchSize 1 := by
    refine (ceilDiv_le_iff_le_mul (by omega)).2 ?_
    calc z.matchings.toList.length
        ≤ max batchSize 1 * (z.matchings.toList.length ⌈/⌉ max batchSize 1) :=
          (ceilDiv_le_iff_le_mul (by omega)).1 le_rfl
      _ ≤ max batchSize' 1 * (z.matchings.toList.length ⌈/⌉ max batchSize 1) :=
          Nat.mul_le_mul_right _ h
  simp only [visitSubstitution, hequation batchSize k hle,
    hequation batchSize' k' (hle'.trans (hle.trans hk))]
  exact ⟨trivial, trivial, _, _, by omega, rfl, rfl⟩

theorem outlasts_visitPartition (partition : Partition) {t t' : Token} (ht : t.AtMost t')
    (p : Progress) :
    (z.visitPartition batchSize partition t p).Outlasts
      (z.visitPartition batchSize' partition t' p) :=
  (Walk.forEach_outlasts (fun s _ _ p ht => outlasts_visitSubstitution hm h s ht p) _ ht _).1

theorem outlasts_visitSplit (split : List Name) {t t' : Token} (ht : t.AtMost t') (p : Progress) :
    (z.visitSplit batchSize split t p).Outlasts (z.visitSplit batchSize' split t' p) := by
  intro hr
  rw [result_visitSplit] at hr
  obtain ⟨hr', hstate, htoken⟩ := (Walk.forEach_outlasts
    (fun partition _ _ p ht => outlasts_visitPartition hm h partition ht p)
    (partitions z.algebra.table split z.identity.degrees) ht p.countSplit).1 hr
  simp only [visitSplit, hr, hr', hstate]
  exact ⟨trivial, trivial, htoken⟩

theorem outlasts_visitTarget (target : Name) {t t' : Token} (ht : t.AtMost t') :
    (z.visitTarget batchSize target t).Outlasts (z.visitTarget batchSize' target t') ∧
      (splits z.algebra.table target z.identity.degrees).finished (z.visitSplit batchSize) t .start
        <+: (splits z.algebra.table target z.identity.degrees).finished (z.visitSplit batchSize') t'
          .start :=
  Walk.forEach_outlasts (fun split _ _ p ht => outlasts_visitSplit hm h split ht p) _ ht _

end

end

end Linearization

/-! ## Outcomes -/

section
variable {target : Name} {a : PartialAlgebra} {config config' : Config}

theorem generate_unlimited (e : Identity) :
    generate e target a config .unlimited = generate e target a config' .unlimited := by
  rcases generate_cases e target a with ⟨f, -, hf⟩ | ⟨z, hz, -, -, hrun⟩
  · rw [(hf config _).1, (hf config' _).1]
  · obtain ⟨rfl, rfl, hm⟩ := Linearization.ofIdentity_eq_ok hz
    obtain ⟨hresult, ⟨htoken, htoken'⟩, hstate⟩ :=
      Linearization.unlimited_visitTarget hm config.batchSize config'.batchSize target
    rw [(hrun config _).1, (hrun config' _).1, htoken, htoken', hstate, hresult]
    simp only [keptEquations, hresult, hstate]

theorem generateFrom_unlimited (identities : List Identity) (equations : Array Equation)
    (stats : Stats) :
    generateFrom target a config identities .unlimited equations stats =
      generateFrom target a config' identities .unlimited equations stats := by
  induction identities generalizing equations stats with
  | nil => rfl
  | cons e rest ih =>
    obtain ⟨n, hpolls, -⟩ := polls_generate e target a config'
    have he : generate e target a config .unlimited = generate e target a config' .unlimited :=
      generate_unlimited e
    simp only [generateFrom, he, hpolls.unlimited, ih]

theorem status_generateFrom_ne_cancelled (identities : List Identity) (equations : Array Equation)
    (stats : Stats) :
    (generateFrom target a config identities .unlimited equations stats).1.status ≠ .cancelled := by
  induction identities generalizing equations stats with
  | nil =>
    intro h
    cases Outcome.cancelled_ofResult.1 h
  | cons e rest ih =>
    obtain ⟨n, hpolls, -⟩ := polls_generate e target a config
    by_cases h : (generate e target a config .unlimited).1.status.IsFinished
    · rw [(generateFrom_of_isFinished rest equations stats h).1, hpolls.unlimited]
      exact ih _ _
    · rw [(generateFrom_of_not_isFinished rest equations stats h).1]
      exact status_ne_cancelled

section
variable (h : max config.batchSize 1 ≤ max config'.batchSize 1)
include h

/-- With larger batches, a run finishes at least the same splits, and ends as before where it came to
its end before. -/
theorem generate_outlasts (e : Identity) {t t' : Token} (ht : t.AtMost t') :
    searched e target a config t <+: searched e target a config' t' ∧
      ((generate e target a config t).1.status.IsFinished →
        (generate e target a config' t').1 = (generate e target a config t).1 ∧
          (generate e target a config t).2.AtMost (generate e target a config' t').2) := by
  rcases generate_cases e target a with ⟨f, -, hf⟩ | ⟨z, hz, -, -, hrun⟩
  · rw [(hf config _).1, (hf config' _).1, (hf config _).2, (hf config' _).2]
    exact ⟨List.prefix_rfl, fun _ => ⟨rfl, ht⟩⟩
  · obtain ⟨rfl, rfl, hm⟩ := Linearization.ofIdentity_eq_ok hz
    obtain ⟨houtlasts, hinitial⟩ := Linearization.outlasts_visitTarget hm h target ht
    rw [(hrun config _).1, (hrun config' _).1, (hrun config _).2, (hrun config' _).2,
      Outcome.isFinished_ofResult]
    refine ⟨hinitial, fun hr => ?_⟩
    obtain ⟨hr', hstate, htoken⟩ := houtlasts hr
    refine ⟨?_, htoken⟩
    simp only [keptEquations, hr, hr', hstate]

theorem searchedFrom_initial (identities : List Identity) {t t' : Token} (ht : t.AtMost t') :
    searchedFrom target a config identities t <+: searchedFrom target a config' identities t' := by
  induction identities generalizing t t' with
  | nil => exact List.prefix_rfl
  | cons e rest ih =>
    obtain ⟨hinitial, houtcome⟩ :
        searched e target a config t <+: searched e target a config' t' ∧ _ :=
      generate_outlasts h e ht
    by_cases hf : (generate e target a config t).1.status.IsFinished
    · obtain ⟨hsame, htoken⟩ := houtcome hf
      have hf' : (generate e target a config' t').1.status.IsFinished := hsame ▸ hf
      rw [(generateFrom_of_isFinished rest #[] .zero hf).2,
        (generateFrom_of_isFinished rest #[] .zero hf').2,
        (generate_eq_searched (.inl hf)).2 hf, (generate_eq_searched (.inl hf')).2 hf']
      exact (List.prefix_append_right_inj _).2 (ih htoken)
    · rw [(generateFrom_of_not_isFinished rest #[] .zero hf).2]
      exact (hinitial.map (e, ·)).trans (List.prefix_append _ _)

end

/-- If two runs differ in nothing but their polls, and the second one searches more, then with the
same budget it returns these equations and more. -/
theorem equations_initial {β : Type} {run run' : Token → Outcome × Token}
    {searched searched' : Token → List β} {equationsOf : β → List Equation} {n n' : Nat}
    (hpolls : Polls (fun o : Outcome => o.status = .cancelled) run n)
    (hpolls' : Polls (fun o : Outcome => o.status = .cancelled) run' n')
    (heq : ∀ t, (run t).1.status.IsFinished ∨ (run t).1.status = .cancelled →
      (run t).1.equations = (searched t).flatMap equationsOf)
    (heq' : ∀ t, (run' t).1.status.IsFinished ∨ (run' t).1.status = .cancelled →
      (run' t).1.equations = (searched' t).flatMap equationsOf)
    (hsame : run .unlimited = run' .unlimited) (hf : (run .unlimited).1.status.IsFinished) {k : Nat}
    (hinitial : searched (.ofBudget (some k)) <+: searched' (.ofBudget (some k))) :
    (run (.ofBudget (some k))).1.equations <+: (run' (.ofBudget (some k))).1.equations := by
  rw [heq _ (hpolls.isFinished_or_cancelled hf k),
    heq' _ (hpolls'.isFinished_or_cancelled (hsame ▸ hf) k)]
  exact hinitial.flatMap _

end

/-- Two batch sizes. With a token that grants every poll they give the same outcome, for one identity
and for several. At every substitution, batches give what the evaluation in one go gives: the pairs
under all matchings, or the first error; if there is no error, they poll once for each batch. With the
same limited number of polls, where an unlimited run does not fail, the equations found with smaller
batches are the first of those found with larger ones. -/
theorem generate_batchSize (target : Name) (a : PartialAlgebra) (config config' : Config) :
    (∀ e : Identity,
      generate e target a config .unlimited = generate e target a config' .unlimited) ∧
    (∀ identities : List Identity,
      generateAll identities target a config .unlimited =
        generateAll identities target a config' .unlimited) ∧
    (∀ (e : Identity) (z : Linearization), Linearization.ofIdentity e a = .ok z →
      z.matchings.toList.length = z.count ∧ ∀ s : Substitution,
        z.equation config.batchSize s .unlimited = (z.flatEquation s, .unlimited) ∧
        ∀ q, z.flatEquation s = .ok q →
          Polls (· = .error .cancelled) (z.equation config.batchSize s)
            (z.count ⌈/⌉ max config.batchSize 1)) ∧
    (max config.batchSize 1 ≤ max config'.batchSize 1 → ∀ k : Nat,
      (∀ e : Identity, (∀ f, (generate e target a config .unlimited).1.status ≠ .failed f) →
        (generate e target a config (.ofBudget (some k))).1.equations <+:
          (generate e target a config' (.ofBudget (some k))).1.equations) ∧
      ∀ identities : List Identity,
        (∀ f, (generateAll identities target a config .unlimited).1.status ≠ .failed f) →
        (generateAll identities target a config (.ofBudget (some k))).1.equations <+:
          (generateAll identities target a config' (.ofBudget (some k))).1.equations) := by
  refine ⟨generate_unlimited, fun identities => ?_, fun e z hz => ?_,
    fun h k => ⟨fun e hfail => ?_, fun identities => ?_⟩⟩
  · unfold generateAll
    split
    · rfl
    · exact generateFrom_unlimited _ _ _
  · obtain ⟨rfl, rfl, hm⟩ := Linearization.ofIdentity_eq_ok hz
    have hcount := Linearization.count_of_ofIdentity hz
    have hlength : z.matchings.toList.length = z.count := by
      rw [hm, (yields_matchings _).toList, length_matchingLists, hcount]
    refine ⟨hlength, fun s => ⟨Linearization.equation_unlimited hm _ s, fun q hq => ?_⟩⟩
    rw [← hlength]
    refine Linearization.polls_equation hm (fun m hmem => ?_) _
    obtain ⟨ps, hps, -⟩ := bind_eq_ok.1 hq
    obtain ⟨pairs, -, hpairs⟩ := exists_of_forall₂ (mapM_eq_ok.1 hps) hmem
    exact ⟨pairs, hpairs⟩
  · obtain ⟨n, hpolls, -⟩ := polls_generate e target a config
    obtain ⟨n', hpolls', -⟩ := polls_generate e target a config'
    exact equations_initial hpolls hpolls' (fun t ht => (generate_eq_searched ht).1)
      (fun t ht => (generate_eq_searched ht).1) (generate_unlimited e)
      (isFinished_iff.2 hfail)
      (generate_outlasts h e ⟨k, k, le_rfl, rfl, rfl⟩).1
  · unfold generateAll
    cases hd : a.table.degree target with
    | error f => exact fun _ => List.prefix_rfl
    | ok d =>
      intro hfail
      obtain ⟨n, hpolls, -⟩ := polls_generateFrom target a config
        (identities.filter (·.degree ≤ d)) #[] .zero
      obtain ⟨n', hpolls', -⟩ := polls_generateFrom target a config'
        (identities.filter (·.degree ≤ d)) #[] .zero
      exact equations_initial hpolls hpolls' (fun t ht => (generateFrom_eq_searched ht).1)
        (fun t ht => (generateFrom_eq_searched ht).1) (generateFrom_unlimited _ _ _)
        (Status.isFinished_of_ne (status_generateFrom_ne_cancelled _ _ _) hfail)
        (searchedFrom_initial h _ ⟨k, k, le_rfl, rfl, rfl⟩)

/-- The square, with batches of one matching and of both. -/
theorem generate_batchSize_square :
    ∃ (a : PartialAlgebra) (square : Identity) (z : Linearization),
      Identity.ofWords [(1, .product (.letter 'x') (.letter 'x'))] = .ok square ∧
      Linearization.ofIdentity square a = .ok z ∧ z.matchings.toList.length = z.count ∧
      z.flatEquation [[0, 0]] = .ok (some ⟨[⟨1, 0, 0⟩, ⟨1, 0, 0⟩]⟩) ∧
      z.equation 1 [[0, 0]] .unlimited = (.ok (some ⟨[⟨1, 0, 0⟩, ⟨1, 0, 0⟩]⟩), .unlimited) ∧
      Polls (· = .error .cancelled) (z.equation 1 [[0, 0]]) (z.count ⌈/⌉ max 1 1) ∧
      max 1 1 ≤ max 2 1 ∧
      (∀ f, (generate square 2 a ⟨1⟩ .unlimited).1.status ≠ .failed f) ∧
      (generate square 2 a ⟨1⟩ (.ofBudget (some 8))).1.equations <+:
        (generate square 2 a ⟨2⟩ (.ofBudget (some 8))).1.equations ∧
      (∀ f, (generateAll [square] 2 a ⟨1⟩ .unlimited).1.status ≠ .failed f) ∧
      (generateAll [square] 2 a ⟨1⟩ (.ofBudget (some 8))).1.equations <+:
        (generateAll [square] 2 a ⟨2⟩ (.ofBudget (some 8))).1.equations := by
  obtain ⟨t, b, -, hb, hc, hd⟩ : ∃ t b, Multidegree.Table.ofTarget ⟨[2]⟩ = .ok t ∧
      (Basis.empty t).push none 1 = .ok b ∧ t.contains 2 = true ∧ t.degree 2 = .ok 2 :=
    ⟨_, _, rfl, rfl, by decide, rfl⟩
  let a : PartialAlgebra := ⟨.standard, t, b, .empty⟩
  let square : Identity := ⟨['x'], [2], [⟨1, .product (.leaf 0 0) (.leaf 0 1)⟩]⟩
  let z : Linearization := ⟨square, a, matchings [2], 2⟩
  have hsquare : Identity.ofWords [(1, .product (.letter 'x') (.letter 'x'))] = .ok square := rfl
  have hz : Linearization.ofIdentity square a = .ok z := rfl
  have hflat : z.flatEquation [[0, 0]] = .ok (some ⟨[⟨1, 0, 0⟩, ⟨1, 0, 0⟩]⟩) := rfl
  have hfail : ∀ f, (generate square 2 a ⟨1⟩ .unlimited).1.status ≠ .failed f :=
    status_ne_failed_of_leaves (.push .empty hb) (Identity.isNumbered_of_ofWords hsquare) hc
      (by decide) fun term hterm => ⟨0, 0, 0, 1, by rw [List.mem_singleton.1 hterm]⟩
  have hall : (generateAll [square] 2 a ⟨1⟩ .unlimited).1.status.IsFinished := by
    have hfirst := isFinished_iff.2 hfail
    simp only [generateAll, a, hd]
    show (generateFrom 2 a ⟨1⟩ [square] .unlimited #[] .zero).1.status.IsFinished
    rw [(generateFrom_of_isFinished [] #[] .zero hfirst).1]
    exact Outcome.isFinished_ofResult.2 rfl
  have hallFail : ∀ f, (generateAll [square] 2 a ⟨1⟩ .unlimited).1.status ≠ .failed f := by
    intro f hf
    rcases hall with h | h <;> cases hf.symm.trans h
  obtain ⟨-, -, hbatches, hbudget⟩ := generate_batchSize 2 a ⟨1⟩ ⟨2⟩
  obtain ⟨hlength, hequation⟩ := hbatches square z hz
  obtain ⟨hunlimited, hpolls⟩ := hequation [[0, 0]]
  have hle : max 1 1 ≤ max 2 1 := by omega
  obtain ⟨hsingle, hseveral⟩ := hbudget hle 8
  exact ⟨a, square, z, hsquare, hz, hlength, hflat, hflat ▸ hunlimited, hpolls _ hflat, hle, hfail,
    hsingle square hfail, hallFail, hseveral [square] hallFail⟩

end Nonassoc
