import Mathlib.Algebra.BigOperators.Group.List.Basic
import Mathlib.Algebra.BigOperators.Group.Finset.Basic
import Mathlib.Data.Fintype.Perm
import Mathlib.Data.List.GetD
import Mathlib.Data.List.OfFn
import Mathlib.Data.Nat.Factorial.Basic
import Nonassoc.Matching
import Nonassoc.Proofs.Choices
import Nonassoc.Proofs.Walk

/-!
# Matchings as permutations

`arrangementLists` is the search for the ways to line up a list: they are its reorderings
(`mem_arrangementLists`), each of them once. So a matching chooses a permutation for every variable
(`yields_matchings`, `mem_matchingLists`), and a sum over the ways to line up the slots of a
variable is a sum over the permutations of its slots (`sum_arrangementLists`). The number of
matchings is the product of the factorials (`length_matchingLists`, `matchingCount_eq_ok`).
-/

namespace Nonassoc

open Walk (Yields)

variable {α β : Type}

/-! ## Lining up a list -/

theorem perm_of_mem_selections {l : List α} {x : α × List α} (h : x ∈ selections l) :
    (x.1 :: x.2).Perm l := by
  induction l generalizing x with
  | nil => cases h
  | cons a l ih =>
    rw [selections, List.mem_cons] at h
    rcases h with rfl | h
    · exact List.Perm.refl _
    · obtain ⟨y, hy, rfl⟩ := List.mem_map.1 h
      exact (List.Perm.swap a y.1 y.2).trans ((ih hy).cons a)

theorem map_fst_selections (l : List α) : (selections l).map Prod.fst = l := by
  induction l with
  | nil => rfl
  | cons a l ih =>
    rw [selections, List.map_cons, List.map_map]
    exact congrArg (a :: ·) ih

/-- The ways to line up `n` entries of a list, as a list. -/
def arrangementLists : (n : Nat) → List α → List (List α)
  | 0, _ => [[]]
  | n + 1, l => (selections l).flatMap fun x => (arrangementLists n x.2).map (x.1 :: ·)

theorem yields_arrangements {next : List α → Walk β} {spec : List α → List β}
    (h : ∀ r, Yields (next r) (spec r)) (n : Nat) (l taken : List α) :
    Yields (arrangements next n l taken)
      ((arrangementLists n l).flatMap fun r => spec (taken.reverse ++ r)) := by
  induction n generalizing l taken with
  | zero => exact (h _).congr (by simp [arrangementLists])
  | succ n ih =>
    rw [arrangementLists, List.flatMap_assoc]
    refine Yields.choose fun x _ => (ih x.2 (x.1 :: taken)).congr ?_
    simp [List.flatMap_map]

theorem mem_arrangementLists {l r : List α} : r ∈ arrangementLists l.length l ↔ r.Perm l := by
  generalize hn : l.length = n
  induction n generalizing l r with
  | zero =>
    rw [List.length_eq_zero_iff] at hn
    subst hn
    simp [arrangementLists]
  | succ n ih =>
    simp only [arrangementLists, List.mem_flatMap, List.mem_map]
    have hlen : ∀ x ∈ selections l, x.2.length = n := fun x hx => by
      have := (perm_of_mem_selections hx).length_eq
      rw [hn, List.length_cons] at this
      exact Nat.succ.inj this
    refine ⟨fun hm => ?_, fun h => ?_⟩
    · obtain ⟨x, hx, r, hr, rfl⟩ := hm
      exact (((ih (hlen x hx)).1 hr).cons x.1).trans (perm_of_mem_selections hx)
    · cases r with
      | nil => exact absurd (h.length_eq.trans hn) (Nat.succ_ne_zero n).symm
      | cons a r =>
        have ha : a ∈ (selections l).map Prod.fst := by
          rw [map_fst_selections]
          exact h.subset List.mem_cons_self
        obtain ⟨x, hx, rfl⟩ := List.mem_map.1 ha
        have hr : r.Perm x.2 := (h.trans (perm_of_mem_selections hx).symm).cons_inv
        exact ⟨x, hx, r, (ih (hlen x hx)).2 hr, rfl⟩

theorem nodup_arrangementLists (n : Nat) {l : List α} (h : l.Nodup) :
    (arrangementLists n l).Nodup := by
  induction n generalizing l with
  | zero => exact List.nodup_singleton _
  | succ n ih =>
    have hfst : ((selections l).map Prod.fst).Nodup := by rwa [map_fst_selections]
    refine nodup_flatMap_of_inj hfst.of_map (fun x hx => ?_) fun x hx y hy r hr hr' => ?_
    · exact (ih ((perm_of_mem_selections hx).nodup_iff.2 h).of_cons).map List.cons_injective
    · obtain ⟨s, -, rfl⟩ := List.mem_map.1 hr
      obtain ⟨s', -, he⟩ := List.mem_map.1 hr'
      exact List.inj_on_of_nodup_map hfst hx hy (List.cons.inj he).1.symm

theorem mem_arrangementLists_range {d : Nat} {r : List Nat} :
    r ∈ arrangementLists d (List.range d) ↔ r.Perm (List.range d) := by
  have h := mem_arrangementLists (l := List.range d) (r := r)
  rwa [List.length_range] at h

/-- The ways to line up the slots of a variable are the permutations of its slots. -/
theorem sum_arrangementLists {M : Type} [AddCommMonoid M] (d : Nat) (h : List Nat → M) :
    ((arrangementLists d (List.range d)).map h).sum =
      ∑ σ : Equiv.Perm (Fin d), h (List.ofFn fun k => (σ k : Nat)) := by
  rw [← List.sum_toFinset _ (nodup_arrangementLists d List.nodup_range)]
  symm
  refine Finset.sum_bij (fun σ _ => List.ofFn fun k => (σ k : Nat)) (fun σ _ => ?_)
    (fun σ _ τ _ hστ => ?_) (fun r hr => ?_) fun _ _ => rfl
  · have hnodup : (List.ofFn fun k => (σ k : Nat)).Nodup :=
      List.nodup_ofFn.2 (Fin.val_injective.comp σ.injective)
    rw [List.mem_toFinset, mem_arrangementLists_range,
      List.perm_ext_iff_of_nodup hnodup List.nodup_range]
    intro i
    rw [List.mem_ofFn, List.mem_range]
    constructor
    · rintro ⟨k, rfl⟩
      exact (σ k).isLt
    · exact fun hi => ⟨σ.symm ⟨i, hi⟩, by simp⟩
  · exact Equiv.ext fun k => Fin.ext (congrFun (List.ofFn_injective hστ) k)
  · rw [List.mem_toFinset, mem_arrangementLists_range] at hr
    have hlen : r.length = d := by simpa using hr.length_eq
    have hlt : ∀ k (hk : k < r.length), r[k] < d := fun k hk =>
      List.mem_range.1 (hr.subset (List.getElem_mem hk))
    have hinj : Function.Injective fun k : Fin d =>
        (⟨r.get (k.cast hlen.symm), hlt _ _⟩ : Fin d) := fun j k hjk =>
      Fin.ext ((hr.nodup_iff.2 List.nodup_range).getElem_inj_iff.1 (Fin.mk.inj hjk))
    refine ⟨Equiv.ofBijective _ (Finite.injective_iff_bijective.1 hinj), Finset.mem_univ _, ?_⟩
    exact List.ext_getElem (by simp [hlen]) fun k _ _ => by simp

/-! ## Matchings -/

/-- The matchings, as a list. -/
def matchingLists (degrees : List Nat) : List Matching :=
  choices (degrees.map fun d => arrangementLists d (List.range d))

theorem yields_matchingsFrom (degrees : List Nat) (taken : Matching) :
    Yields (matchingsFrom degrees taken) ((matchingLists degrees).map (taken.reverse ++ ·)) := by
  induction degrees generalizing taken with
  | nil => exact (Yields.visit _).congr (by simp [matchingLists, choices])
  | cons d rest ih =>
    have h := yields_arrangements (fun slots => ih (slots :: taken)) d (List.range d) []
    apply h.congr
    simp [matchingLists, choices, List.map_flatMap, Function.comp_def]

theorem yields_matchings (degrees : List Nat) :
    Yields (matchings degrees) (matchingLists degrees) :=
  (yields_matchingsFrom degrees []).congr (by simp)

theorem polls_arrangements {next : List α → Walk β} (h : ∀ r, (next r).polls = 0) (n : Nat)
    (l taken : List α) : (arrangements next n l taken).polls = 0 := by
  induction n generalizing l taken with
  | zero => exact h _
  | succ n ih => exact Walk.polls_choose fun x _ => ih x.2 (x.1 :: taken)

/-- Nothing is polled while matchings are listed. -/
theorem polls_matchings (degrees : List Nat) : (matchings degrees).polls = 0 := by
  have hfrom : ∀ taken, (matchingsFrom degrees taken).polls = 0 := by
    induction degrees with
    | nil => exact fun taken => rfl
    | cons d rest ih =>
      exact fun taken => polls_arrangements (fun slots => ih (slots :: taken)) d (List.range d) []
  exact hfrom []

/-- A matching lines up the slots of every variable. -/
theorem mem_matchingLists {degrees : List Nat} {m : Matching} :
    m ∈ matchingLists degrees ↔
      List.Forall₂ (fun slots d => slots.Perm (List.range d)) m degrees := by
  rw [matchingLists, mem_choices_map]
  simp only [mem_arrangementLists_range]

/-- A matching tells a slot for every occurrence. -/
theorem exists_slot_of_mem {degrees : List Nat} {m : Matching} (h : m ∈ matchingLists degrees)
    {v k : Nat} (hk : k < degrees.getD v 0) : ∃ j < degrees.getD v 0, m.slot v k = .ok j := by
  have hv := lt_length_of_lt_getD hk
  rw [mem_matchingLists] at h
  have hvm : v < m.length := h.length_eq ▸ hv
  have hperm : m[v].Perm (List.range degrees[v]) := h.get hvm hv
  rw [List.getD_eq_getElem _ _ hv] at hk ⊢
  have hkm : k < m[v].length := by rwa [hperm.length_eq, List.length_range]
  refine ⟨m[v][k], List.mem_range.1 (hperm.subset (List.getElem_mem hkm)), ?_⟩
  simp [Matching.slot, hvm, hkm]

/-! ## Number -/

theorem length_arrangementLists (d : Nat) :
    (arrangementLists d (List.range d)).length = d.factorial := by
  have h := sum_arrangementLists d fun _ => 1
  simpa [Fintype.card_perm] using h

theorem length_matchingLists (degrees : List Nat) :
    (matchingLists degrees).length = (degrees.map Nat.factorial).prod := by
  rw [matchingLists, length_choices, List.map_map]
  exact congrArg List.prod (List.map_congr_left fun d _ => length_arrangementLists d)

/-- The factors are multiplied until the product is too large, and no later factor makes it
smaller. -/
theorem timesFrom?_eq {product factor : Nat} (hp : product ≤ maximalCount) (hf : 0 < factor)
    (n : Nat) :
    timesFrom? product factor n =
      if product * factor.ascFactorial n ≤ maximalCount then some (product * factor.ascFactorial n)
      else none := by
  induction n generalizing product factor with
  | zero => simp [timesFrom?, hp]
  | succ n ih =>
    have hsucc : product * factor.ascFactorial (n + 1) =
        product * factor * (factor + 1).ascFactorial n := by
      rw [Nat.mul_assoc, Nat.succ_ascFactorial, Nat.ascFactorial_succ]
    rw [timesFrom?, hsucc]
    by_cases hlt : maximalCount < product * factor
    · have hle := Nat.le_mul_of_pos_right (product * factor) (Nat.ascFactorial_pos factor n)
      rw [if_pos hlt, if_neg (Nat.not_le.2 (hlt.trans_le hle))]
    · rw [if_neg hlt, ih (Nat.not_lt.1 hlt) (Nat.succ_pos factor)]

theorem prod_factorial_pos (degrees : List Nat) : 0 < (degrees.map Nat.factorial).prod := by
  induction degrees with
  | nil => exact Nat.one_pos
  | cons d degrees ih => exact Nat.mul_pos (Nat.factorial_pos d) ih

theorem factorialProduct?_eq (degrees : List Nat) :
    factorialProduct? degrees =
      if (degrees.map Nat.factorial).prod ≤ maximalCount then
        some (degrees.map Nat.factorial).prod
      else none := by
  have hfold : ∀ product ≤ maximalCount,
      degrees.foldlM (fun product d => timesFrom? product 1 d) product =
        if product * (degrees.map Nat.factorial).prod ≤ maximalCount then
          some (product * (degrees.map Nat.factorial).prod)
        else none := by
    induction degrees with
    | nil => intro product hp; simp [hp]
    | cons d degrees ih =>
      intro product hp
      rw [List.foldlM_cons, timesFrom?_eq hp Nat.one_pos, Nat.one_ascFactorial, List.map_cons,
        List.prod_cons, ← Nat.mul_assoc]
      split
      · rename_i hle
        exact ih _ hle
      · rename_i hlt
        have hle := Nat.le_mul_of_pos_right (product * d.factorial) (prod_factorial_pos degrees)
        rw [if_neg (Nat.not_le.2 ((Nat.not_le.1 hlt).trans_le hle))]
        rfl
  simpa [factorialProduct?] using hfold 1 (by decide)

/-- The number of matchings, which is the number of ways to choose a bijection for each variable. -/
theorem matchingCount_eq (degrees : List Nat) :
    matchingCount degrees =
      if (degrees.map Nat.factorial).prod ≤ matchingCapacity then
        .ok (degrees.map Nat.factorial).prod
      else .error (.exhausted .permutationList) := by
  have hcapacity : matchingCapacity ≤ maximalCount := by decide
  rw [matchingCount, factorialProduct?_eq]
  by_cases h : (degrees.map Nat.factorial).prod ≤ matchingCapacity
  · simp only [if_pos h, if_pos (h.trans hcapacity), if_neg (Nat.not_lt.2 h)]
  · rw [if_neg h]
    split
    · rfl
    · rename_i n hn
      obtain ⟨-, hn⟩ := Option.ite_none_right_eq_some.1 hn
      rw [← Option.some.inj hn, if_pos (Nat.not_le.1 h)]

theorem matchingCount_eq_ok {degrees : List Nat}
    (h : (degrees.map Nat.factorial).prod ≤ matchingCapacity) :
    matchingCount degrees = .ok (degrees.map Nat.factorial).prod := by
  rw [matchingCount_eq, if_pos h]

/-- What there is no room for is the matchings. -/
theorem matchingCount_eq_error {degrees : List Nat} {f : Failure}
    (h : matchingCount degrees = .error f) : f = .exhausted .permutationList := by
  rw [matchingCount_eq] at h
  split at h
  · cases h
  · exact (Except.error.inj h).symm

end Nonassoc
