import Nonassoc.Proofs.Cancellation
import Nonassoc.Proofs.Failures
import Nonassoc.Proofs.Residues

/-!
# Scaled identities

If the coefficients of an identity are multiplied by a number that the characteristic does not
divide, a run does the same as before, step by step, and every coefficient that it finds is
multiplied by the residue of the number. If the characteristic divides it, then no term is evaluated
and nothing is found. Main result: `generate_scaled`.
-/

namespace Nonassoc

open Multidegree (Name)
open Search (Substitution)
open Walk (Run)

/-! ## Multiples -/

/-- The term with its coefficient multiplied by `c`. -/
def Term.scale (c : Int) (t : Term) : Term := { t with coefficient := t.coefficient * c }

/-- The pair with its coefficient multiplied by `x`. -/
def Pair.scale (f : PrimeField) (x : Scalar) (p : Pair) : Pair :=
  { p with coefficient := f.mul p.coefficient x }

/-- The equation with all coefficients multiplied by `x`. -/
def Equation.scale (f : PrimeField) (x : Scalar) (e : Equation) : Equation :=
  ⟨e.pairs.map (Pair.scale f x)⟩

/-- The outcome with all coefficients of its equations multiplied by `x`. -/
def Outcome.scale (f : PrimeField) (x : Scalar) (o : Outcome) : Outcome :=
  { o with equations := o.equations.map (Equation.scale f x) }

namespace Identity

theorem scaleTerms_eq_ok {c : Int} {n : Nat} {l l' : List Term} (h : scaleTerms c n l = .ok l') :
    l' = l.map (Term.scale c) := by
  induction l generalizing n l' with
  | nil =>
    cases h
    rfl
  | cons t rest ih =>
    rw [scaleTerms] at h
    split at h
    · cases h
    · rename_i x hx
      obtain ⟨rest', hrest, hl⟩ := bind_eq_ok.1 h
      cases hl
      rw [ih hrest, ← (Coefficient.fit?_eq_some.1 hx).2]
      rfl

theorem scaled_eq_ok {e s : Identity} {c : Int} (h : e.scaled c = .ok s) :
    s = { e with terms := e.terms.map (Term.scale c) } := by
  unfold scaled at h
  split at h
  · cases h
  · obtain ⟨terms, hterms, hs⟩ := bind_eq_ok.1 h
    cases hs
    rw [scaleTerms_eq_ok hterms]

end Identity

@[simp] theorem Equation.size_scale (f : PrimeField) (x : Scalar) (e : Equation) :
    (e.scale f x).size = e.size := List.length_map _

/-! ## Evaluation -/

namespace Linearization

/-- The linearization of the identity with its coefficients multiplied by `c`. -/
def scale (c : Int) (z : Linearization) : Linearization :=
  { z with identity := { z.identity with terms := z.identity.terms.map (Term.scale c) } }

theorem pairsOf_mul (f : PrimeField) (c x : Scalar) (u v : Element) :
    pairsOf f (f.mul c x) u v = (pairsOf f c u v).map (Pair.scale f x) := by
  simp only [pairsOf, List.map_flatMap, List.map_map, Function.comp_def, Pair.scale,
    PrimeField.mul_swap]

section
variable {c : Int}

/-- A unit changes neither which terms are evaluated nor what their evaluation needs. -/
theorem evaluateTerm_scale {a : PartialAlgebra} (hc : ¬ (a.field.prime : Int) ∣ c)
    (s : Substitution) (m : Matching) (t : Term) :
    evaluateTerm a s m (t.scale c) =
      List.map (Pair.scale a.field (a.field.ofInt c)) <$> evaluateTerm a s m t := by
  cases hpattern : t.pattern with
  | leaf v k =>
    simp only [evaluateTerm, Term.scale, hpattern]
    rfl
  | product l r =>
    have hpattern' : (t.scale c).pattern = .product l r := hpattern
    have hzero : a.field.ofInt (t.coefficient * c) = 0 ↔ a.field.ofInt t.coefficient = 0 := by
      rw [PrimeField.ofInt_mul, PrimeField.mul_eq_zero_iff (PrimeField.ofInt_lt _)
        (PrimeField.ofInt_lt _), or_iff_left (mt PrimeField.ofInt_eq_zero_iff.1 hc)]
    rw [evaluateTerm_product hpattern', evaluateTerm_product hpattern]
    simp only [Term.scale, hzero]
    split
    · rfl
    · simp only [PrimeField.ofInt_mul, pairsOf_mul, map_bind, map_pure]

theorem evaluate_scale {z : Linearization} (hc : ¬ (z.algebra.field.prime : Int) ∣ c)
    (s : Substitution) (m : Matching) :
    (z.scale c).evaluate s m =
      List.map (Pair.scale z.algebra.field (z.algebra.field.ofInt c)) <$> z.evaluate s m := by
  simp only [evaluate, scale, List.mapM_map, Function.comp_def, evaluateTerm_scale hc, mapM_map,
    bind_map_left, map_bind, map_pure, List.map_flatten]

/-- No term is left of a multiple of the characteristic. -/
theorem evaluate_scale_of_dvd {z : Linearization} (hc : (z.algebra.field.prime : Int) ∣ c)
    (s : Substitution) (m : Matching) : (z.scale c).evaluate s m = .ok [] := by
  have hterm : ∀ t ∈ (z.scale c).identity.terms, evaluateTerm z.algebra s m t = .ok [] := by
    intro t ht
    obtain ⟨t, -, rfl⟩ := List.mem_map.1 ht
    cases hpattern : t.pattern with
    | leaf v k => simp only [evaluateTerm, Term.scale, hpattern]
    | product l r =>
      have hpattern' : (t.scale c).pattern = .product l r := hpattern
      have hzero : z.algebra.field.ofInt (t.scale c).coefficient = 0 :=
        PrimeField.ofInt_eq_zero_iff.2 (hc.mul_left _)
      rw [evaluateTerm_product hpattern', if_pos hzero]
  have hterms : (z.scale c).identity.terms.mapM (evaluateTerm z.algebra s m) =
      .ok ((z.scale c).identity.terms.map fun _ => []) := mapM_eq_ok_map hterm
  show ((z.scale c).identity.terms.mapM (evaluateTerm z.algebra s m) >>= _) = _
  rw [hterms]
  simp [bind, Except.bind, pure, Except.pure]

end

end Linearization

/-! ## Runs side by side -/

/-- The second sum is the first one with its coefficients multiplied by the residue of `c`. -/
structure Linearization.Sum.Scaled (f : PrimeField) (c : Int) (sum sum' : Sum) : Prop where
  pairs : sum'.pairs.toList = sum.pairs.toList.map (Pair.scale f (f.ofInt c))
  left : sum'.left = sum.left

/-- The second progress is the first one with all coefficients multiplied by the residue of `c`. -/
structure Progress.Scaled (f : PrimeField) (c : Int) (p p' : Progress) : Prop where
  equations : p'.equations.toList = p.equations.toList.map (Equation.scale f (f.ofInt c))
  stats : p'.stats = p.stats
  completed : p'.completed = p.completed

namespace Progress.Scaled

variable {f : PrimeField} {c : Int} {p p' : Progress} (h : p.Scaled f c p')
include h

theorem countSubstitution : p.countSubstitution.Scaled f c p'.countSubstitution :=
  ⟨h.equations, by rw [Progress.countSubstitution, h.stats]; rfl, h.completed⟩

theorem record (count : Nat) (e : Option Equation) :
    (p.record count e).Scaled f c (p'.record count (e.map (Equation.scale f (f.ofInt c)))) := by
  refine ⟨?_, by simp only [Progress.record, h.stats], h.completed⟩
  cases e with
  | none => exact h.equations
  | some e =>
    simp only [Progress.record, Option.map_some, Array.toList_push, h.equations, List.map_append,
      List.map_cons, List.map_nil]

omit h in
theorem keeps : Progress.Keeps (Progress.Scaled f c) where
  countSplit h := ⟨h.equations, by rw [Progress.countSplit, h.stats]; rfl, h.completed⟩
  countPartition h := ⟨h.equations, by rw [Progress.countPartition, h.stats]; rfl, h.completed⟩
  complete h := ⟨h.equations, h.stats, by
    simp only [Progress.complete, Array.size_eq_length_toList, h.equations, List.length_map]⟩

end Progress.Scaled

namespace Linearization

section
variable {z : Linearization} {c : Int} (hc : ¬ (z.algebra.field.prime : Int) ∣ c) (batchSize : Nat)
include hc

theorem scaled_visitMatching (s : Substitution) (m : Matching) {t t' : Token} {sum sum' : Sum}
    (ht : t = t') (h : sum.Scaled z.algebra.field c sum') :
    (z.visitMatching batchSize s m t sum).Similar Eq (Sum.Scaled z.algebra.field c)
      ((z.scale c).visitMatching batchSize s m t' sum') := by
  subst ht
  have hadd : ∀ t left,
      (z.addMatching s m t { sum with left }).Similar Eq (Sum.Scaled z.algebra.field c)
        ((z.scale c).addMatching s m t { sum' with left }) := by
    intro t left
    simp only [addMatching, evaluate_scale hc]
    cases z.evaluate s m with
    | error e => exact ⟨rfl, rfl, h.pairs, rfl⟩
    | ok more =>
      refine ⟨rfl, rfl, ?_, rfl⟩
      simp only [Except.map_ok, Array.toList_appendList, h.pairs, List.map_append]
  simp only [visitMatching, h.left]
  split
  · exact hadd _ _
  · split
    · exact hadd _ _
    · exact ⟨rfl, rfl, h⟩

theorem scaled_visitSubstitution (s : Substitution) {t t' : Token} {p p' : Progress} (ht : t = t')
    (h : p.Scaled z.algebra.field c p') :
    (z.visitSubstitution batchSize s t p).Similar Eq (Progress.Scaled z.algebra.field c)
      ((z.scale c).visitSubstitution batchSize s t' p') := by
  obtain ⟨hresult, htoken, hpairs, -⟩ := Walk.forEach_similar (w := z.matchings)
    (fun _ _ h => h ▸ ⟨rfl, rfl⟩)
    (fun m _ _ _ _ _ => scaled_visitMatching hc batchSize s m) ht
    (⟨rfl, rfl⟩ : (⟨#[], 0⟩ : Sum).Scaled z.algebra.field c ⟨#[], 0⟩)
  have hmatchings : (z.scale c).matchings = z.matchings := rfl
  have hcount : (z.scale c).count = z.count := rfl
  simp only [visitSubstitution, equation, hmatchings, hcount, hresult, ← htoken]
  cases (z.matchings.forEach (z.visitMatching batchSize s) t ⟨#[], 0⟩).result with
  | error e => exact ⟨rfl, rfl, h.countSubstitution⟩
  | ok u =>
    refine ⟨rfl, rfl, ?_⟩
    simp only [← Array.isEmpty_toList, hpairs, List.isEmpty_map]
    convert h.countSubstitution.record z.count _ using 2
    split <;> rfl

theorem scaled_visitTarget (target : Name) (t : Token) :
    (z.visitTarget batchSize target t).Similar Eq (Progress.Scaled z.algebra.field c)
      ((z.scale c).visitTarget batchSize target t) := by
  have halgebra : (z.scale c).algebra = z.algebra := rfl
  have hdegrees : (z.scale c).identity.degrees = z.identity.degrees := rfl
  exact similar_visitTarget halgebra hdegrees (fun _ _ h => h ▸ ⟨rfl, rfl⟩) Progress.Scaled.keeps
    (fun s _ _ _ _ => scaled_visitSubstitution hc batchSize s) target rfl ⟨rfl, rfl, rfl⟩

end

end Linearization

/-! ## Outcomes -/

theorem Outcome.ofResult_scale (f : PrimeField) (x : Scalar) (result : Except Failure Unit)
    (equations : List Equation) (stats : Stats) :
    ofResult result (equations.map (Equation.scale f x)) stats =
      (ofResult result equations stats).scale f x := by
  have hof : ∀ status, ofEquations status (equations.map (Equation.scale f x)) stats =
      (ofEquations status equations stats).scale f x := by
    intro status
    simp only [ofEquations, scale, List.length_map, List.map_map, Function.comp_def,
      Equation.size_scale]
  cases result with
  | ok u =>
    rw [ofResult, ofResult, List.isEmpty_map]
    exact hof _
  | error e => cases e <;> first | rfl | exact hof _

theorem keptEquations_scaled {f : PrimeField} {c : Int} {run run' : Run Progress}
    (h : run.Similar Eq (Progress.Scaled f c) run') :
    keptEquations run' = (keptEquations run).map (Equation.scale f (f.ofInt c)) := by
  unfold keptEquations
  rw [h.result, h.state.equations, h.state.completed]
  split
  · rw [List.map_take]
  · rfl

/-- Where every evaluation gives no pair, a search finds nothing, and nothing but its token ends
it. -/
theorem Linearization.visitTarget_vanishes {z : Linearization} {target : Name}
    (ht : z.algebra.table.contains target = true) (hw : z.matchings.failure? = none)
    (h : ∀ s m, z.evaluate s m = .ok []) (batchSize : Nat) (t : Token) :
    ((z.visitTarget batchSize target t).result = .ok () ∨
        (z.visitTarget batchSize target t).result = .error .cancelled) ∧
      keptEquations (z.visitTarget batchSize target t) = [] := by
  have hresult : (z.visitTarget batchSize target t).result = .ok () ∨
      (z.visitTarget batchSize target t).result = .error .cancelled := by
    have hfails := visitTarget_failsOnly_of_evaluate ht hw (P := fun _ => False)
      (fun s _ m _ f hf => nomatch (h s m).symm.trans hf) batchSize t
    cases hr : (z.visitTarget batchSize target t).result with
    | ok u => exact .inl rfl
    | error f =>
      obtain ⟨rfl, -⟩ := (hfails.error f hr).resolve_left id
      exact .inr rfl
  refine ⟨hresult, ?_⟩
  have hnone : ∀ s, z.equationAt s = none := by
    intro s
    have hpairs : z.PairsAt s (z.matchings.toList.map fun _ => []).flatten :=
      ⟨_, List.forall₂_map_right_iff.2 (List.forall₂_same.2 fun m _ => h s m), rfl⟩
    rw [hpairs.equationAt, if_pos (by simp)]
  have hequations : ∀ split, z.equationsOf split = [] := by
    intro split
    simp only [equationsOf, hnone, Option.toList_none, List.flatMap_eq_nil_iff, implies_true]
  simp only [keptEquations_visitTarget hresult, hequations, List.flatMap_eq_nil_iff, implies_true]

/-- A run for an identity whose coefficients are multiplied by `c` is, if the characteristic does not
divide `c`, the run for the identity with all coefficients of its equations multiplied by the residue
of `c`: it fails and is cancelled at the same point. If the characteristic divides `c`, the run finds
nothing, and lacks no product; on a known target, with matchings that fit in memory, it ends without
equations unless it is cancelled. -/
theorem generate_scaled {e s : Identity} {c : Int} (hs : e.scaled c = .ok s) (target : Name)
    (a : PartialAlgebra) (config : Config) (t : Token) :
    (¬ (a.field.prime : Int) ∣ c →
      generate s target a config t =
        ((generate e target a config t).1.scale a.field (a.field.ofInt c),
          (generate e target a config t).2)) ∧
    ((a.field.prime : Int) ∣ c →
      (generate s target a config t).1.equations = [] ∧
      (∀ f, (generate s target a config t).1.status ≠ .failed (.algebra f)) ∧
      (a.table.contains target = true → (e.degrees.map Nat.factorial).prod ≤ matchingCapacity →
        (generate s target a config t).1.status ≠ .cancelled →
        (generate s target a config t).1.status = .empty)) := by
  obtain rfl := Identity.scaled_eq_ok hs
  by_cases ht : a.table.contains target = true
  · by_cases hfits : (e.degrees.map Nat.factorial).prod ≤ matchingCapacity
    · let z : Linearization := ⟨e, a, matchings e.degrees, (e.degrees.map Nat.factorial).prod⟩
      have hz : Linearization.ofIdentity e a = .ok z := Linearization.ofIdentity_of_fits hfits
      have hz' : Linearization.ofIdentity { e with terms := e.terms.map (Term.scale c) } a =
          .ok (z.scale c) := Linearization.ofIdentity_of_fits hfits
      rw [generate_eq_search ht hz, generate_eq_search ht hz']
      refine ⟨fun hc => ?_, fun hc => ?_⟩
      · have hrun := Linearization.scaled_visitTarget (z := z) hc config.batchSize target t
        rw [keptEquations_scaled hrun, hrun.result, hrun.state.stats, ← hrun.token,
          Outcome.ofResult_scale]
      · obtain ⟨hresult, hempty⟩ := Linearization.visitTarget_vanishes (z := z.scale c) ht
          (yields_matchings _).failure? (Linearization.evaluate_scale_of_dvd hc) config.batchSize t
        rw [hempty]
        rcases hresult with hresult | hresult <;> rw [hresult]
        · exact ⟨rfl, fun _ h => (by cases h), fun _ _ _ => rfl⟩
        · exact ⟨rfl, fun _ h => (by cases h), fun _ _ h => absurd rfl h⟩
    · simp only [generate, ht, Linearization.ofIdentity, matchingCount_eq, if_neg hfits]
      exact ⟨fun _ => rfl, fun _ => ⟨rfl, fun _ h => (by cases h), fun _ h => absurd h hfits⟩⟩
  · simp only [generate, ht]
    exact ⟨fun _ => rfl, fun _ => ⟨rfl, fun _ h => (by cases h), fun h => (by cases h)⟩⟩

/-- The square demanded to be zero three times, and as often as the characteristic says. -/
theorem generate_scaled_square :
    ∃ (a : PartialAlgebra) (square three multiple : Identity),
      Identity.ofWords [(1, .product (.letter 'x') (.letter 'x'))] = .ok square ∧
      square.scaled 3 = .ok three ∧ square.scaled 251 = .ok multiple ∧
      ¬ (a.field.prime : Int) ∣ 3 ∧ (a.field.prime : Int) ∣ 251 ∧ a.table.contains 2 = true ∧
      (square.degrees.map Nat.factorial).prod ≤ matchingCapacity ∧
      generate three 2 a .standard .unlimited =
        ((generate square 2 a .standard .unlimited).1.scale a.field (a.field.ofInt 3),
          (generate square 2 a .standard .unlimited).2) ∧
      (generate multiple 2 a .standard .unlimited).1.status ≠ .cancelled ∧
      (generate multiple 2 a .standard .unlimited).1.status = .empty := by
  obtain ⟨t, b, -, -, hc⟩ : ∃ t b, Multidegree.Table.ofTarget ⟨[2]⟩ = .ok t ∧
      (Basis.empty t).push none 1 = .ok b ∧ t.contains 2 = true :=
    ⟨_, _, rfl, rfl, by decide⟩
  let a : PartialAlgebra := ⟨.standard, t, b, .empty⟩
  let square : Identity := ⟨['x'], [2], [⟨1, .product (.leaf 0 0) (.leaf 0 1)⟩]⟩
  have hsquare : Identity.ofWords [(1, .product (.letter 'x') (.letter 'x'))] = .ok square := rfl
  have h3 : square.scaled 3 = .ok ⟨['x'], [2], [⟨3, .product (.leaf 0 0) (.leaf 0 1)⟩]⟩ := rfl
  have h251 : square.scaled 251 = .ok ⟨['x'], [2], [⟨251, .product (.leaf 0 0) (.leaf 0 1)⟩]⟩ := rfl
  have hndvd : ¬ (a.field.prime : Int) ∣ 3 := show ¬ ((251 : Nat) : Int) ∣ 3 by decide
  have hdvd : (a.field.prime : Int) ∣ 251 := show ((251 : Nat) : Int) ∣ 251 by decide
  have hfits : (square.degrees.map Nat.factorial).prod ≤ matchingCapacity := by decide
  exact ⟨a, square, _, _, hsquare, h3, h251, hndvd, hdvd, hc, hfits,
    (generate_scaled h3 2 a .standard .unlimited).1 hndvd, status_ne_cancelled,
    ((generate_scaled h251 2 a .standard .unlimited).2 hdvd).2.2 hc hfits status_ne_cancelled⟩

end Nonassoc
