import Nonassoc.Proofs.Runs

/-!
# Why a run fails

The walks that a run takes do not fail, so an error is that of an evaluation, unless the token ends
the run (`visitTarget_failsOnly_of_evaluate`). No evaluation counts as a cancellation. So a run on a
known target whose matchings fit in memory fails only with the error of an evaluation at a
substitution that is reached (`exists_evaluate_of_failed`), and with a token that grants every poll
it is not cancelled (`status_ne_cancelled`).
-/

namespace Nonassoc

open Multidegree (Name)
open Search (Substitution reached)
open Walk (Run)

/-! ## Evaluation -/

namespace Linearization

theorem evaluateTerm_product {a : PartialAlgebra} {s : Substitution} {m : Matching} {term : Term}
    {l r : Pattern} (h : term.pattern = .product l r) :
    evaluateTerm a s m term =
      if a.field.ofInt term.coefficient = 0 then .ok []
      else do
        let x ← evaluatePattern a s m l
        let y ← evaluatePattern a s m r
        return pairsOf a.field (a.field.ofInt term.coefficient) x y := by
  simp only [evaluateTerm, h]

theorem evaluatePattern_ne_cancelled {a : PartialAlgebra} {s : Substitution} {m : Matching}
    (p : Pattern) : evaluatePattern a s m p ≠ .error .cancelled := by
  induction p with
  | leaf v k =>
    intro h
    rw [evaluatePattern, bind_eq_error] at h
    rcases h with h | ⟨j, -, h⟩
    · obtain ⟨f, -, hf⟩ := mapError_eq_error.1 h
      cases hf
    · rcases bind_eq_error.1 h with h | ⟨b, -, h⟩
      · obtain ⟨f, -, hf⟩ := mapError_eq_error.1 h
        cases hf
      · cases h
  | product l r hl hr =>
    intro h
    rw [evaluatePattern, bind_eq_error] at h
    rcases h with h | ⟨x, -, h⟩
    · exact hl h
    · rcases bind_eq_error.1 h with h | ⟨y, -, h⟩
      · exact hr h
      · obtain ⟨f, -, hf⟩ := mapError_eq_error.1 h
        cases hf

theorem evaluateTerm_ne_cancelled {a : PartialAlgebra} {s : Substitution} {m : Matching}
    (term : Term) : evaluateTerm a s m term ≠ .error .cancelled := by
  intro h
  cases hpattern : term.pattern with
  | leaf v k =>
    simp only [evaluateTerm, hpattern] at h
    cases h
  | product l r =>
    rw [evaluateTerm_product hpattern] at h
    split at h
    · cases h
    · rcases bind_eq_error.1 h with h | ⟨x, -, h⟩
      · exact evaluatePattern_ne_cancelled l h
      · rcases bind_eq_error.1 h with h | ⟨y, -, h⟩
        · exact evaluatePattern_ne_cancelled r h
        · cases h

variable {z : Linearization} {s : Substitution} {m : Matching}

theorem evaluate_ne_cancelled : z.evaluate s m ≠ .error .cancelled := by
  intro h
  rcases bind_eq_error.1 h with h | ⟨pairs, -, h⟩
  · obtain ⟨term, -, h⟩ := exists_of_mapM_eq_error h
    exact evaluateTerm_ne_cancelled term h
  · cases h

/-! ## Searches -/

/-- The error of a matching is that of its evaluation, unless the token ends the run. -/
theorem visitMatching_failsOnly (batchSize : Nat) (s : Substitution) (m : Matching) (t : Token)
    (sum : Sum) :
    (z.visitMatching batchSize s m t sum).FailsOnly (fun f => z.evaluate s m = .error f) t := by
  have hadd : ∀ t sum,
      (z.addMatching s m t sum).FailsOnly (fun f => z.evaluate s m = .error f) t := by
    intro t sum
    unfold addMatching
    split
    · exact ⟨id, nofun⟩
    · rename_i herror
      exact ⟨id, fun e he => .inl (by cases he; exact herror)⟩
  unfold visitMatching
  split
  · exact hadd _ _
  · -- a poll before the evaluation
    let visitor : Matching → Token → Sum → Run Sum := fun m t sum =>
      z.addMatching s m t { sum with left := batchSize - 1 }
    show (Walk.forEach visitor (.poll fun _ => .visit m) t sum).FailsOnly _ t
    exact Walk.forEach_failsOnly nofun (fun a ha t sum => List.mem_singleton.1 ha ▸ hadd t _) t sum

theorem result_visitSubstitution (batchSize : Nat) (s : Substitution) (t : Token) (q : Progress) :
    (z.visitSubstitution batchSize s t q).result =
        (z.matchings.forEach (z.visitMatching batchSize s) t ⟨#[], 0⟩).result ∧
      (z.visitSubstitution batchSize s t q).token =
        (z.matchings.forEach (z.visitMatching batchSize s) t ⟨#[], 0⟩).token := by
  simp only [visitSubstitution, equation]
  cases (z.matchings.forEach (z.visitMatching batchSize s) t ⟨#[], 0⟩).result <;> exact ⟨rfl, rfl⟩

/-- Unless the token ends it, a search fails only with the error of an evaluation. -/
theorem visitTarget_failsOnly_of_evaluate {target : Name}
    (ht : z.algebra.table.contains target = true) (hw : z.matchings.failure? = none)
    {P : Failure → Prop}
    (h : ∀ s ∈ reached z.algebra.table z.algebra.basis target z.identity.degrees,
      ∀ m ∈ z.matchings.toList, ∀ f, z.evaluate s m = .error f → P f) (batchSize : Nat)
    (t : Token) : (z.visitTarget batchSize target t).FailsOnly P t := by
  have hfailure : ∀ {α : Type} {w : Walk α} {P : Failure → Prop}, w.failure? = none →
      ∀ f, w.failure? = some f → P f := fun hw f hf => nomatch hw.symm.trans hf
  refine Walk.forEach_failsOnly (hfailure (Search.failure?_splits ht _))
    (fun split hsplit t q => ?_) t _
  have hd : z.identity.degrees ≠ [] := ((Search.mem_splits ht).1 hsplit).1
  obtain ⟨hlen, hne, hn⟩ := Search.splits_spec ht hd hsplit
  refine (Walk.forEach_failsOnly (hfailure (Search.yields_partitions hlen hne hn).failure?)
    (fun partition hpartition t q => ?_) t q.countSplit).congr (result_visitSplit ..)
    (token_visitSplit ..)
  refine Walk.forEach_failsOnly (hfailure (Search.failure?_substitutions partition))
    (fun s hs t q => ?_) t _
  obtain ⟨hresult, htoken⟩ := result_visitSubstitution (z := z) batchSize s t q
  refine (Walk.forEach_failsOnly (hfailure hw) (fun m hm t sum => ?_) t
    (⟨#[], 0⟩ : Sum)).congr hresult htoken
  have hmatching := visitMatching_failsOnly (z := z) batchSize s m t sum
  refine ⟨hmatching.token, fun f hf => (hmatching.error f hf).imp_left fun heval => ?_⟩
  exact h s (List.mem_flatMap.2 ⟨split, hsplit, List.mem_flatMap.2 ⟨partition, hpartition, hs⟩⟩) m
    hm f heval

end Linearization

/-! ## Outcomes -/

variable {e : Identity} {a : PartialAlgebra} {target : Name} {config : Config} {t : Token}

/-- A run on a known target whose matchings fit in memory fails with the error of an evaluation. -/
theorem exists_evaluate_of_failed (ht : a.table.contains target = true) {z : Linearization}
    (hz : Linearization.ofIdentity e a = .ok z) {f : Failure}
    (h : (generate e target a config t).1.status = .failed f) :
    ∃ s ∈ reached a.table a.basis target e.degrees, ∃ m ∈ z.matchings.toList,
      z.evaluate s m = .error f := by
  obtain ⟨rfl, rfl, hm⟩ := Linearization.ofIdentity_eq_ok hz
  have hw : z.matchings.failure? = none := hm ▸ (yields_matchings _).failure?
  rw [generate_eq_search ht hz] at h
  have hresult := Outcome.eq_error_of_status_ofResult h
  have hrun := Linearization.visitTarget_failsOnly_of_evaluate ht hw
    (P := fun f => ∃ s ∈ reached z.algebra.table z.algebra.basis target z.identity.degrees,
      ∃ m ∈ z.matchings.toList, z.evaluate s m = .error f)
    (fun s hs m hm f hf => ⟨s, hs, m, hm, hf⟩) config.batchSize t
  refine (hrun.error f hresult).resolve_right fun hc => ?_
  rw [hresult, hc.1] at h
  cases h

/-- A token that grants every poll does not end a run. -/
theorem status_ne_cancelled : (generate e target a config .unlimited).1.status ≠ .cancelled := by
  intro h
  by_cases ht : a.table.contains target = true
  · cases hz : Linearization.ofIdentity e a with
    | error f =>
      obtain rfl := Linearization.ofIdentity_eq_error hz
      simp only [generate, ht, hz] at h
      cases h
    | ok z =>
      obtain ⟨-, rfl, hm⟩ := Linearization.ofIdentity_eq_ok hz
      have hw : z.matchings.failure? = none := hm ▸ (yields_matchings _).failure?
      have hrun := Linearization.visitTarget_failsOnly_of_evaluate ht hw (P := (· ≠ .cancelled))
        (fun s _ m _ f hf hc => Linearization.evaluate_ne_cancelled (hc ▸ hf)) config.batchSize
        .unlimited
      rw [generate_eq_search ht hz] at h
      rcases hrun.error _ (Outcome.cancelled_ofResult.1 h) with hne | ⟨-, hcancelled⟩
      · exact hne rfl
      · rw [hrun.token rfl] at hcancelled
        cases hcancelled
  · simp only [generate, ht] at h
    cases h

theorem Status.isFinished_of_ne {s : Status} (hc : s ≠ .cancelled) (hf : ∀ f, s ≠ .failed f) :
    s.IsFinished := by
  cases s with
  | complete => exact .inl rfl
  | empty => exact .inr rfl
  | cancelled => exact absurd rfl hc
  | failed f => exact absurd rfl (hf f)

/-- With a token that grants every poll, a run comes to its end unless it fails. -/
theorem isFinished_iff : (generate e target a config .unlimited).1.status.IsFinished ↔
    ∀ f, (generate e target a config .unlimited).1.status ≠ .failed f := by
  refine ⟨fun h f hf => ?_, Status.isFinished_of_ne status_ne_cancelled⟩
  rcases h with h | h <;> cases hf.symm.trans h

/-- It does so exactly if its identity can be evaluated wherever the search comes. -/
theorem isFinished_iff_evaluate (hd : e.degrees ≠ []) :
    (generate e target a config .unlimited).1.status.IsFinished ↔
      a.table.contains target = true ∧ ∃ z, Linearization.ofIdentity e a = .ok z ∧
        ∀ s ∈ reached a.table a.basis target e.degrees, ∀ m ∈ matchingLists e.degrees,
          ∃ pairs, z.evaluate s m = .ok pairs := by
  refine ⟨fun h => ?_, fun ⟨ht, z, hz, h⟩ => generate_finishes ht hd hz h⟩
  obtain ⟨ht, z, hz, -⟩ := pairsAt_of_finished h
  refine ⟨ht, z, hz, fun s hs m hm => exists_evaluate_of_finished h hz hs ?_⟩
  rwa [(Linearization.ofIdentity_eq_ok hz).2.2, (yields_matchings _).toList]

/-- An identity of degree two needs no known product. -/
theorem status_ne_failed_of_leaves (hb : a.basis.Built a.table) (he : e.IsNumbered)
    (ht : a.table.contains target = true)
    (hfits : (e.degrees.map Nat.factorial).prod ≤ matchingCapacity)
    (hl : ∀ term ∈ e.terms, ∃ u i v j, term.pattern = .product (.leaf u i) (.leaf v j))
    (f : Failure) : (generate e target a config t).1.status ≠ .failed f := by
  intro hf
  obtain ⟨s, hs, m, hm, heval⟩ :=
    exists_evaluate_of_failed ht (Linearization.ofIdentity_of_fits hfits) hf
  have htable := (Search.mem_reached ht he.degrees_ne_nil hb he.degrees_pos).1 hs
  have hm' : m ∈ matchingLists e.degrees := (yields_matchings e.degrees).toList ▸ hm
  rcases bind_eq_error.1 heval with h | ⟨pairs, -, h⟩
  · obtain ⟨term, hterm, h⟩ := exists_of_mapM_eq_error h
    obtain ⟨pairs, hpairs⟩ := Linearization.exists_evaluateTerm (a := a) htable.lengths hm'
      (he.numbered term hterm) (hl term hterm)
    cases h.symm.trans hpairs
  · cases h

end Nonassoc
