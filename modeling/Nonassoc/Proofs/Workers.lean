import Nonassoc.Proofs.Batches

/-!
# Batches shared by workers

Workers that share a batch take its items in any order, and each puts what it gets in the place of
the item (`Sharing`). Once every place is filled, the results are collected in order; an error in any
place may end the batch before (`Collects`). So what is collected are the results of the evaluation
one by one, and an error is that of some item (`Sharing.of_collects`). Main result: if every matching
of a substitution can be evaluated, workers find the equation that is found without them, however the
matchings are divided into batches (`Linearization.isShareable_of_evaluate`).
-/

namespace Nonassoc

open Search (Substitution)

section
variable {α β ε : Type} {f : α → Except ε β} {l : List α}

/-- The places for the results of the items in `l`, empty at first. A worker that has taken an item
fills the place of the item. -/
inductive Sharing (f : α → Except ε β) (l : List α) : List (Option (Except ε β)) → Prop
  | start : Sharing f l (l.map fun _ => none)
  | fill {places : List (Option (Except ε β))} {i : Nat} {a : α} :
      Sharing f l places → l[i]? = some a → Sharing f l (places.set i (some (f a)))

/-- What is collected: the results in all places in order, or an error that stands in a place. -/
inductive Collects : List (Option (Except ε β)) → Except ε (List β) → Prop
  | all (rs : List β) : Collects (rs.map fun r => some (.ok r)) (.ok rs)
  | failure {places : List (Option (Except ε β))} {e : ε} :
      some (.error e) ∈ places → Collects places (.error e)

/-- Whatever the workers have done, each place is that of an item, and empty or with its result. -/
theorem Sharing.forall₂ {places : List (Option (Except ε β))} (h : Sharing f l places) :
    List.Forall₂ (fun a place => ∀ r, place = some r → f a = r) l places := by
  induction h with
  | start => exact List.forall₂_map_right_iff.2 (List.forall₂_same.2 fun _ _ _ h => by cases h)
  | @fill places i a _ ha ih =>
    rw [List.forall₂_iff_get] at ih ⊢
    obtain ⟨hlength, hplaces⟩ := ih
    refine ⟨by rw [List.length_set, hlength], fun j hj hj' r hr => ?_⟩
    rw [List.get_eq_getElem, List.getElem_set] at hr
    split at hr
    · rename_i hij
      subst hij
      obtain ⟨_, rfl⟩ := List.getElem?_eq_some_iff.1 ha
      exact Option.some.inj hr
    · exact hplaces j hj (by rwa [List.length_set] at hj') r hr

/-- What is collected are the results of all items in order, or the error of an item. -/
theorem Sharing.of_collects {places : List (Option (Except ε β))} (h : Sharing f l places)
    {result : Except ε (List β)} (hresult : Collects places result) :
    (∃ rs, result = .ok rs ∧ l.mapM f = .ok rs) ∨
      ∃ e, result = .error e ∧ ∃ a ∈ l, f a = .error e := by
  cases hresult with
  | all rs =>
    refine .inl ⟨rs, rfl, mapM_eq_ok.2 ?_⟩
    exact (List.forall₂_map_right_iff.1 h.forall₂).imp fun a r hr => hr _ rfl
  | @failure _ e he =>
    obtain ⟨i, hi, hplace⟩ := List.getElem_of_mem he
    obtain ⟨hlength, hplaces⟩ := List.forall₂_iff_get.1 h.forall₂
    have hi' : i < l.length := hlength ▸ hi
    exact .inr ⟨e, rfl, l[i], List.getElem_mem hi', hplaces i hi' hi _ hplace⟩

/-- One worker alone can fill all places. -/
theorem Sharing.all (f : α → Except ε β) (l : List α) : Sharing f l (l.map fun a => some (f a)) := by
  -- the items in `done` have been taken
  have htaken : ∀ done rest : List α, done ++ rest = l →
      Sharing f l ((done.map fun a => some (f a)) ++ rest.map fun _ => none) := by
    intro done
    induction done using List.reverseRecOn with
    | nil =>
      rintro rest rfl
      exact .start
    | append_singleton done a ih =>
      rintro rest rfl
      have hplace : (done ++ [a] ++ rest)[done.length]? = some a := by simp
      have hfill := (ih (a :: rest) (by simp)).fill hplace
      simpa using hfill
  simpa using htaken l [] (List.append_nil l)

end

namespace Linearization

/-- What workers give that share one batch of matchings after the other, up to the first one that
fails. -/
inductive Shared (z : Linearization) (s : Substitution) :
    List (List Matching) → Except Failure (List Pair) → Prop
  | done : Shared z s [] (.ok [])
  | batch {b : List Matching} {rest : List (List Matching)}
      {places : List (Option (Except Failure (List Pair)))} {ps : List (List Pair)}
      {result : Except Failure (List Pair)} :
      Sharing (z.evaluate s) b places → Collects places (.ok ps) → Shared z s rest result →
      Shared z s (b :: rest) (result.map (ps.flatten ++ ·))
  | failed {b : List Matching} {places : List (Option (Except Failure (List Pair)))} {e : Failure}
      (rest : List (List Matching)) :
      Sharing (z.evaluate s) b places → Collects places (.error e) →
      Shared z s (b :: rest) (.error e)

variable {z : Linearization} {s : Substitution} {batches : List (List Matching)}
  {result : Except Failure (List Pair)}

/-- Workers put the pairs under all matchings together in order, or fail as some matching does. -/
theorem Shared.outcome (h : z.Shared s batches result) :
    (∃ ps, result = .ok ps.flatten ∧ batches.flatten.mapM (z.evaluate s) = .ok ps) ∨
      ∃ e, result = .error e ∧ ∃ m ∈ batches.flatten, z.evaluate s m = .error e := by
  induction h with
  | done => exact .inl ⟨[], rfl, rfl⟩
  | @batch b rest places ps result hsharing hcollects _ ih =>
    rcases hsharing.of_collects hcollects with ⟨rs, hrs, hb⟩ | ⟨e, he, -⟩
    · cases hrs
      rcases ih with ⟨ps', rfl, hps'⟩ | ⟨e, rfl, m, hm, hfails⟩
      · refine .inl ⟨ps ++ ps', by rw [List.flatten_append]; rfl, ?_⟩
        rw [List.flatten_cons, List.mapM_append, hb, hps']
        rfl
      · exact .inr ⟨e, rfl, m, List.mem_append_right _ hm, hfails⟩
    · cases he
  | @failed b places e rest hsharing hcollects =>
    rcases hsharing.of_collects hcollects with ⟨rs, hrs, -⟩ | ⟨_, he, m, hm, hfails⟩
    · cases hrs
    · cases he
      exact .inr ⟨e, rfl, m, List.mem_append_left _ hm, hfails⟩

/-- If no evaluation fails, workers put the pairs under all matchings together in order. -/
theorem Shared.exists_mapM (h : z.Shared s batches result)
    (hevaluate : ∀ m ∈ batches.flatten, ∃ pairs, z.evaluate s m = .ok pairs) :
    ∃ ps, batches.flatten.mapM (z.evaluate s) = .ok ps ∧ result = .ok ps.flatten := by
  rcases h.outcome with ⟨ps, hresult, hps⟩ | ⟨e, -, m, hm, hfails⟩
  · exact ⟨ps, hps, hresult⟩
  · obtain ⟨pairs, hpairs⟩ := hevaluate m hm
    cases hfails.symm.trans hpairs

/-- Workers fail if and only if some matching cannot be evaluated. -/
theorem Shared.alike (h : z.Shared s batches result) :
    Alike (fun pairs ps => pairs = ps.flatten) result (batches.flatten.mapM (z.evaluate s)) := by
  rcases h.outcome with ⟨ps, rfl, hps⟩ | ⟨e, rfl, m, hm, hfails⟩
  · rw [hps]
    exact .ok rfl
  · cases hps : batches.flatten.mapM (z.evaluate s) with
    | error e' => exact .error e e'
    | ok ps =>
      obtain ⟨pairs, -, hpairs⟩ := exists_of_forall₂ (mapM_eq_ok.1 hps) hm
      cases hfails.symm.trans hpairs

/-- If no evaluation fails, workers come to the end of all batches. -/
theorem exists_shared (hevaluate : ∀ m ∈ batches.flatten, ∃ pairs, z.evaluate s m = .ok pairs) :
    ∃ result, z.Shared s batches result := by
  induction batches with
  | nil => exact ⟨_, .done⟩
  | cons b rest ih =>
    obtain ⟨result, hresult⟩ := ih fun m hm => hevaluate m (List.mem_append_right _ hm)
    have hb := fun m (hm : m ∈ b) => hevaluate m (List.mem_append_left _ hm)
    choose! pairs hpairs using hb
    have hplaces : (b.map fun m => some (z.evaluate s m)) =
        (b.map pairs).map fun r => some (.ok r) := by
      rw [List.map_map]
      exact List.map_congr_left fun m hm => by rw [hpairs m hm, Function.comp_apply]
    exact ⟨_, .batch (hplaces ▸ Sharing.all _ b) (.all _) hresult⟩

/-- However the matchings are divided into batches and shared by workers, these find the equation at
the substitution that batches of any size give without them. -/
def IsShareable (z : Linearization) (s : Substitution) : Prop :=
  ∃ pairs : List Pair,
    (∀ batches : List (List Matching), batches.flatten = z.matchings.toList →
      ∀ result, z.Shared s batches result ↔ result = .ok pairs) ∧
    ∀ batchSize, z.equation batchSize s .unlimited =
      (.ok (if pairs.isEmpty then none else some ⟨pairs⟩), .unlimited)

/-- It is enough that all matchings can be evaluated. -/
theorem isShareable_of_evaluate (hz : z.matchings = Nonassoc.matchings z.identity.degrees)
    (hevaluate : ∀ m ∈ z.matchings.toList, ∃ pairs, z.evaluate s m = .ok pairs) :
    z.IsShareable s := by
  obtain ⟨ps, hps⟩ : ∃ ps, z.matchings.toList.mapM (z.evaluate s) = .ok ps := by
    choose! pairs hpairs using hevaluate
    exact ⟨_, mapM_eq_ok_map hpairs⟩
  refine ⟨ps.flatten, fun batches hbatches => ?_, fun batchSize => ?_⟩
  · rw [← hbatches] at hevaluate hps
    have hresult : ∀ result, z.Shared s batches result → result = .ok ps.flatten := by
      intro result h
      obtain ⟨ps', hps', rfl⟩ := h.exists_mapM hevaluate
      rw [Except.ok.inj (hps'.symm.trans hps)]
    obtain ⟨result, h⟩ := exists_shared hevaluate
    exact fun _ => ⟨hresult _, fun heq => heq ▸ hresult result h ▸ h⟩
  · rw [equation_unlimited hz, flatEquation, hps]
    rfl

end Linearization

end Nonassoc
