import Mathlib.Algebra.Module.BigOperators
import Mathlib.Data.Fintype.Perm
import Mathlib.Data.List.GetD
import Mathlib.Data.Nat.Choose.Sum
import Mathlib.GroupTheory.Perm.Basic
import Mathlib.LinearAlgebra.Multilinear.Basic
import Mathlib.LinearAlgebra.Span.Basic
import Nonassoc.Proofs.Matchings

/-!
# Symmetrization

A family of vectors has a row for every variable and a place for every occurrence. `symmetrize` adds
up the values of a function at all reorderings of the rows of a family; for a sum over matchings
this is what is meant (`sum_matchingLists`). For a function that is linear in every place
(`RowLinear`):

* if it vanishes where every row is constant, its symmetrization is zero (`symmetrize_eq_zero`);
* if its symmetrization is zero wherever each row is taken from a set of its own, it vanishes where
  every row is constant with a vector from the span of its set, provided that the factorials of the
  lengths of the rows can be cancelled (`eq_zero_of_symmetrize`).

Both go row by row, with one multilinear map for each row; the first rests on polarization
(`sum_perm_eq_zero`).
-/

namespace Nonassoc

/-! ## One row -/

section OneRow
variable {K V W : Type} [CommRing K] [AddCommGroup V] [Module K V] [AddCommGroup W] [Module K W]
  {d : Nat} (g : MultilinearMap K (fun _ : Fin d => V) W)

/-- How often a map of slots is counted, with signs, by the sets of slots that it avoids: only if it
reaches every slot. -/
theorem sum_sign_avoided (r : Fin d → Fin d) :
    (∑ s : Finset (Fin d) with ∀ k, r k ∉ s, (-1 : Int) ^ s.card) =
      if Function.Surjective r then 1 else 0 := by
  have hfilter : (Finset.univ.filter fun s : Finset (Fin d) => ∀ k, r k ∉ s) =
      ((Finset.univ.image r)ᶜ).powerset := by
    ext s
    simp only [Finset.mem_filter, Finset.mem_univ, true_and, Finset.mem_powerset,
      Finset.subset_iff, Finset.mem_compl, Finset.mem_image]
    exact ⟨fun h x hx ⟨k, hk⟩ => h k (hk ▸ hx), fun h k hk => h hk ⟨k, rfl⟩⟩
  rw [hfilter, Finset.sum_powerset_neg_one_pow_card]
  refine if_congr ?_ rfl rfl
  rw [Finset.compl_eq_empty_iff, Finset.eq_univ_iff_forall]
  simp only [Finset.mem_image, Finset.mem_univ, true_and, Function.Surjective]

theorem sum_surjective (h : (Fin d → Fin d) → W) :
    (∑ r with Function.Surjective r, h r) = ∑ σ : Equiv.Perm (Fin d), h σ := by
  symm
  refine Finset.sum_bij (fun σ _ => ⇑σ) (fun σ _ => ?_) (fun σ _ τ _ h => ?_) (fun r hr => ?_)
    fun _ _ => rfl
  · exact Finset.mem_filter.2 ⟨Finset.mem_univ _, σ.surjective⟩
  · exact Equiv.coe_fn_injective h
  · exact ⟨Equiv.ofBijective r (Finite.surjective_iff_bijective.1 (Finset.mem_filter.1 hr).2),
      Finset.mem_univ _, rfl⟩

/-- Polarization. If a multilinear map vanishes where all arguments are the same, then its values at
all reorderings of some arguments add up to zero: this sum is an alternating sum, over the sets of
slots, of the values where every argument is the sum over the slots outside the set. -/
theorem sum_perm_eq_zero {U : Submodule K V} (hg : ∀ x ∈ U, g (fun _ => x) = 0) {u : Fin d → V}
    (hu : ∀ j, u j ∈ U) : ∑ σ : Equiv.Perm (Fin d), g (fun k => u (σ k)) = 0 := by
  have hvalue : ∀ s : Finset (Fin d), g (fun _ => ∑ j ∈ sᶜ, u j) =
      ∑ r : Fin d → Fin d, if ∀ k, r k ∉ s then g (fun k => u (r k)) else 0 := by
    intro s
    rw [g.map_sum_finset (fun _ j => u j) fun _ => sᶜ, ← Finset.sum_filter]
    refine Finset.sum_congr ?_ fun _ _ => rfl
    ext r
    simp [Fintype.mem_piFinset]
  calc ∑ σ : Equiv.Perm (Fin d), g (fun k => u (σ k))
      = ∑ r with Function.Surjective r, g (fun k => u (r k)) :=
        (sum_surjective fun r => g fun k => u (r k)).symm
    _ = ∑ r : Fin d → Fin d, (∑ s : Finset (Fin d) with ∀ k, r k ∉ s, (-1 : Int) ^ s.card) •
          g (fun k => u (r k)) := by
        rw [Finset.sum_filter]
        apply Finset.sum_congr rfl
        intro r _
        rw [sum_sign_avoided, ite_smul, one_smul, zero_smul]
    _ = ∑ s : Finset (Fin d), (-1 : Int) ^ s.card • g (fun _ => ∑ j ∈ sᶜ, u j) := by
        simp only [hvalue, Finset.smul_sum, Finset.sum_filter, Finset.sum_smul, ite_smul, zero_smul,
          smul_ite, smul_zero]
        exact Finset.sum_comm
    _ = 0 := Finset.sum_eq_zero fun s _ => by
        rw [hg _ (U.sum_mem fun j _ => hu j), smul_zero]

/-- A multilinear map that vanishes at all arguments from a set vanishes on its span. -/
theorem eq_zero_of_span {B : Set V} (hg : ∀ z, (∀ k, z k ∈ B) → g z = 0) {z : Fin d → V}
    (hz : ∀ k, z k ∈ Submodule.span K B) : g z = 0 := by
  suffices h : ∀ (s : Finset (Fin d)) (z : Fin d → V), (∀ k ∈ s, z k ∈ Submodule.span K B) →
      (∀ k ∉ s, z k ∈ B) → g z = 0 from
    h Finset.univ z (fun k _ => hz k) fun k hk => absurd (Finset.mem_univ k) hk
  intro s
  induction s using Finset.induction_on with
  | empty => exact fun z _ hB => hg z fun k => hB k (Finset.notMem_empty k)
  | insert i s hi ih =>
    intro z hspan hB
    -- the argument in place `i` may be any vector of the span
    suffices h : ∀ x ∈ Submodule.span K B, g (Function.update z i x) = 0 by
      rw [← Function.update_eq_self i z]
      exact h _ (hspan i (Finset.mem_insert_self i s))
    intro x hx
    induction hx using Submodule.span_induction with
    | mem x hx =>
      refine ih _ (fun k hk => ?_) fun k hk => ?_
      · rw [Function.update_of_ne (ne_of_mem_of_not_mem hk hi)]
        exact hspan k (Finset.mem_insert_of_mem hk)
      · by_cases hki : k = i
        · subst hki
          rwa [Function.update_self]
        · rw [Function.update_of_ne hki]
          exact hB k fun hmem => (Finset.mem_insert.1 hmem).elim hki hk
    | zero => exact g.map_update_zero z i
    | add x y _ _ hx hy => rw [g.map_update_add, hx, hy, add_zero]
    | smul c x _ hx => rw [g.map_update_smul, hx, smul_zero]

end OneRow

/-! ## Families and their reorderings -/

section Families
variable {V : Type}

/-- Puts vectors into the first `d` places of a row. -/
def setRow {d : Nat} (y : Nat × Nat → V) (v : Nat) (z : Fin d → V) : Nat × Nat → V := fun q =>
  if h : q.1 = v ∧ q.2 < d then z ⟨q.2, h.2⟩ else y q

variable {d : Nat} (y : Nat × Nat → V) (v : Nat) (z : Fin d → V)

@[simp] theorem setRow_row (k : Fin d) : setRow y v z (v, k) = z k := by
  simp [setRow]

theorem setRow_of_ne {q : Nat × Nat} (h : q.1 ≠ v) : setRow y v z q = y q := by
  simp [setRow, h]

@[simp] theorem setRow_setRow (z' : Fin d → V) : setRow (setRow y v z) v z' = setRow y v z' := by
  funext q
  simp only [setRow]
  split <;> rfl

@[simp] theorem setRow_self : setRow y v (fun k : Fin d => y (v, k)) = y := by
  funext q
  rw [setRow]
  split
  · rename_i h
    obtain ⟨rfl, -⟩ := h
    rfl
  · rfl

theorem setRow_update (k : Fin d) (x : V) :
    setRow y v (Function.update z k x) = Function.update (setRow y v z) (v, (k : Nat)) x := by
  funext q
  by_cases hq : q = (v, (k : Nat))
  · subst hq
    rw [setRow_row, Function.update_self, Function.update_self]
  · rw [Function.update_of_ne hq, setRow, setRow]
    split
    · rename_i h
      refine Function.update_of_ne (fun he => hq ?_) _ _
      rw [← h.1, ← he]
    · rfl

theorem setRow_update_of_ne {q : Nat × Nat} (h : q.1 ≠ v) (x : V) :
    setRow (Function.update y q x) v z = Function.update (setRow y v z) q x := by
  funext q'
  by_cases hq : q' = q
  · subst hq
    rw [setRow_of_ne _ _ _ h, Function.update_self, Function.update_self]
  · rw [Function.update_of_ne hq, setRow, setRow, Function.update_of_ne hq]

/-- All places of a row hold the same vector. -/
def IsConstantRow (degrees : List Nat) (y : Nat × Nat → V) (v : Nat) : Prop :=
  ∃ x, ∀ k < degrees.getD v 0, y (v, k) = x

/-- The family that the occurrences see: from row `v` on, each occurrence reads the slot that the
matching tells. -/
def Matching.read (m : Matching) (v : Nat) (y : Nat × Nat → V) : Nat × Nat → V := fun q =>
  if q.1 < v then y q else y (q.1, ((m[q.1 - v]?).bind (·[q.2]?)).getD q.2)

theorem Matching.read_of_slot {m : Matching} {k j : Nat} (h : m.slot v k = .ok j) :
    m.read 0 y (v, k) = y (v, j) := by
  rw [Matching.slot] at h
  rw [Matching.read, if_neg (Nat.not_lt_zero v), Nat.sub_zero]
  cases hj : (m[v]?).bind (·[k]?) with
  | none =>
    rw [hj] at h
    cases h
  | some i =>
    rw [hj] at h
    cases h
    rfl

theorem Matching.read_nil (v : Nat) (y : Nat × Nat → V) : Matching.read [] v y = y := by
  funext q
  simp [Matching.read]

theorem Matching.read_cons (σ : Equiv.Perm (Fin d)) (m : Matching) :
    Matching.read ((List.ofFn fun k => (σ k : Nat)) :: m) v y =
      m.read (v + 1) (setRow y v fun k => y (v, (σ k : Nat))) := by
  funext ⟨u, k⟩
  rcases Nat.lt_trichotomy u v with hu | rfl | hu
  · rw [Matching.read, Matching.read, if_pos hu, if_pos (Nat.lt_succ_of_lt hu),
      setRow_of_ne _ _ _ hu.ne]
  · rw [Matching.read, Matching.read, if_neg (Nat.lt_irrefl u), if_pos (Nat.lt_succ_self u)]
    by_cases hk : k < d
    · simp [setRow, hk]
    · simp [setRow, hk]
  · have hsub : u - v = u - (v + 1) + 1 := by omega
    rw [Matching.read, Matching.read, if_neg (Nat.not_lt.2 hu.le), if_neg (Nat.not_lt.2 hu),
      setRow_of_ne _ _ _ hu.ne']
    simp only [hsub, List.getElem?_cons_succ]

/-- The sum of a function over all reorderings of the rows from `v` on, of the given lengths. -/
def symmetrize {W : Type} [AddCommMonoid W] (F : (Nat × Nat → V) → W) :
    (v : Nat) → List Nat → (Nat × Nat → V) → W
  | _, [], y => F y
  | v, d :: rest, y =>
    ∑ σ : Equiv.Perm (Fin d), symmetrize F (v + 1) rest (setRow y v fun k => y (v, σ k))

/-- A sum over matchings is a sum over reorderings. -/
theorem sum_matchingLists {W : Type} [AddCommMonoid W] (F : (Nat × Nat → V) → W)
    (degrees : List Nat) (v : Nat) (y : Nat × Nat → V) :
    ((matchingLists degrees).map fun m => F (m.read v y)).sum = symmetrize F v degrees y := by
  induction degrees generalizing v y with
  | nil => simp [matchingLists, choices, symmetrize, Matching.read_nil]
  | cons d degrees ih =>
    have hcons : ((matchingLists (d :: degrees)).map fun m => F (m.read v y)).sum =
        ((arrangementLists d (List.range d)).map fun slots =>
          ((matchingLists degrees).map fun m => F (Matching.read (slots :: m) v y)).sum).sum := by
      simp only [matchingLists, List.map_cons, choices, List.map_flatMap, List.map_map,
        Function.comp_def]
      rw [List.flatMap_def, List.sum_flatten, List.map_map]
      rfl
    rw [hcons, sum_arrangementLists, symmetrize]
    simp only [Matching.read_cons, ih]

theorem getD_of_drop {degrees ds : List Nat} {v d : Nat} (h : degrees.drop v = d :: ds) :
    degrees.getD v 0 = d := by
  rw [List.getD_eq_getElem?_getD, ← List.head?_drop, h]
  rfl

theorem drop_succ {degrees ds : List Nat} {v d : Nat} (h : degrees.drop v = d :: ds) :
    degrees.drop (v + 1) = ds := by
  rw [← List.drop_drop, h]
  rfl

/-- A function that depends only on the places of some rows still does when it is summed over their
reorderings. -/
theorem symmetrize_congr {W : Type} [AddCommMonoid W] {F : (Nat × Nat → V) → W}
    {degrees : List Nat}
    (hF : ∀ y y' : Nat × Nat → V, (∀ v k, k < degrees.getD v 0 → y (v, k) = y' (v, k)) → F y = F y')
    {y y' : Nat × Nat → V} (h : ∀ v k, k < degrees.getD v 0 → y (v, k) = y' (v, k)) :
    symmetrize F 0 degrees y = symmetrize F 0 degrees y' := by
  suffices hdrop : ∀ ds v, degrees.drop v = ds → ∀ y y' : Nat × Nat → V,
      (∀ v k, k < degrees.getD v 0 → y (v, k) = y' (v, k)) →
      symmetrize F v ds y = symmetrize F v ds y' from hdrop degrees 0 rfl y y' h
  intro ds
  induction ds with
  | nil => exact fun _ _ => hF
  | cons d ds ih =>
    intro v hv y y' h
    have hd : degrees.getD v 0 = d := getD_of_drop hv
    refine Finset.sum_congr rfl fun σ _ => ih (v + 1) (drop_succ hv) _ _ fun u k hk => ?_
    by_cases hu : u = v
    · subst hu
      have hk : k < d := hd ▸ hk
      rw [show setRow y u (fun j : Fin d => y (u, σ j)) (u, k) = _ from setRow_row _ _ _ ⟨k, hk⟩,
        show setRow y' u (fun j : Fin d => y' (u, σ j)) (u, k) = _ from setRow_row _ _ _ ⟨k, hk⟩]
      exact h u _ (hd ▸ (σ ⟨k, hk⟩).isLt)
    · rw [setRow_of_ne _ _ _ hu, setRow_of_ne _ _ _ hu]
      exact h u k hk

end Families

variable {K V W : Type} [CommRing K] [AddCommGroup V] [Module K V] [AddCommGroup W] [Module K W]

/-! ## Functions that are linear in every place -/

/-- A function of families that is linear in each of the first `d` places of a row. -/
def RowLinear (K : Type) [CommRing K] [Module K V] [Module K W] (F : (Nat × Nat → V) → W)
    (v d : Nat) : Prop :=
  ∀ (y : Nat × Nat → V) (k : Fin d), ∃ L : V →ₗ[K] W,
    ∀ x, F (Function.update y (v, (k : Nat)) x) = L x

/-- The multilinear map of a row, where the other rows are fixed. -/
def RowLinear.ofRow {F : (Nat × Nat → V) → W} {v d : Nat} (h : RowLinear K F v d)
    (y : Nat × Nat → V) : MultilinearMap K (fun _ : Fin d => V) W :=
  MultilinearMap.mk' (fun z => F (setRow y v z))
    (fun z k a b => by
      obtain ⟨L, hL⟩ := h (setRow y v z) k
      simp only [setRow_update, hL, map_add])
    (fun z k c a => by
      obtain ⟨L, hL⟩ := h (setRow y v z) k
      simp only [setRow_update, hL, map_smul])

@[simp] theorem RowLinear.ofRow_apply {F : (Nat × Nat → V) → W} {v d : Nat}
    (h : RowLinear K F v d) (y : Nat × Nat → V) (z : Fin d → V) :
    h.ofRow y z = F (setRow y v z) := rfl

/-- The sum over reorderings is linear in the rows before them. -/
theorem RowLinear.symmetrize {F : (Nat × Nat → V) → W} {u c : Nat} (h : RowLinear K F u c)
    (ds : List Nat) {v : Nat} (hv : u < v) : RowLinear K (symmetrize F v ds) u c := by
  induction ds generalizing v with
  | nil => exact h
  | cons d ds ih =>
    have hrow : ∀ (y : Nat × Nat → V) (k : Fin c) (x : V) (σ : Equiv.Perm (Fin d)),
        setRow (Function.update y (u, (k : Nat)) x) v
            (fun j => Function.update y (u, (k : Nat)) x (v, σ j)) =
          Function.update (setRow y v fun j => y (v, σ j)) (u, (k : Nat)) x := by
      intro y k x σ
      rw [setRow_update_of_ne _ _ _ hv.ne]
      refine congrArg (fun z => Function.update (setRow y v z) _ _) (funext fun j => ?_)
      exact Function.update_of_ne (fun he => hv.ne (congrArg Prod.fst he).symm) _ _
    have hlin := ih (hv.trans (Nat.lt_succ_self v))
    intro y k
    choose L hL using fun σ : Equiv.Perm (Fin d) => hlin (setRow y v fun j => y (v, σ j)) k
    refine ⟨∑ σ, L σ, fun x => ?_⟩
    simp only [Nonassoc.symmetrize, hrow, hL, LinearMap.sum_apply]

section
variable {F : (Nat × Nat → V) → W} {degrees : List Nat}
  (hF : ∀ v, RowLinear K F v (degrees.getD v 0))
include hF

/-- If a multilinear function vanishes where all rows are constant, then its values at all
reorderings of the rows add up to zero. -/
theorem symmetrize_eq_zero {U : Submodule K V}
    (hconst : ∀ y, (∀ q, y q ∈ U) → (∀ v, IsConstantRow degrees y v) → F y = 0)
    {y : Nat × Nat → V} (hy : ∀ q, y q ∈ U) : symmetrize F 0 degrees y = 0 := by
  suffices h : ∀ ds v, degrees.drop v = ds → ∀ y : Nat × Nat → V, (∀ q, y q ∈ U) →
      (∀ u < v, IsConstantRow degrees y u) → symmetrize F v ds y = 0 from
    h degrees 0 rfl y hy fun u hu => absurd hu (Nat.not_lt_zero u)
  intro ds
  induction ds with
  | nil =>
    intro v hv y hy hrows
    apply hconst y hy
    intro u
    by_cases hu : u < v
    · exact hrows u hu
    · refine ⟨0, fun k hk => absurd hk ?_⟩
      have hle : degrees.length ≤ u := (List.drop_eq_nil_iff.1 hv).trans (Nat.not_lt.1 hu)
      rw [List.getD_eq_default _ _ hle]
      exact Nat.not_lt_zero k
  | cons d ds ih =>
    intro v hv y hy hrows
    have hd : degrees.getD v 0 = d := getD_of_drop hv
    have hlin := (hF v).symmetrize ds (Nat.lt_succ_self v)
    rw [hd] at hlin
    refine sum_perm_eq_zero (hlin.ofRow y) (U := U) (fun x hx => ?_) (u := fun k => y (v, k))
      fun k => hy _
    refine ih (v + 1) (drop_succ hv) _ (fun q => ?_) fun u hu => ?_
    · rw [setRow]
      split
      · exact hx
      · exact hy q
    · rcases Nat.lt_succ_iff_lt_or_eq.1 hu with hu | rfl
      · obtain ⟨x', hx'⟩ := hrows u hu
        refine ⟨x', fun k hk => ?_⟩
        rw [setRow_of_ne _ _ _ hu.ne]
        exact hx' k hk
      · exact ⟨x, fun k hk => setRow_row _ _ _ (⟨k, hd ▸ hk⟩ : Fin d)⟩

/-- If the values of a multilinear function at all reorderings of the rows add up to zero whenever
the vectors of each row are from a set of its own, and the factorials of the lengths are units, then
the function vanishes where every row is constant with a vector from the span of its set. -/
theorem eq_zero_of_symmetrize {B : Nat → Set V}
    (hB : ∀ y : Nat × Nat → V, (∀ v k, k < degrees.getD v 0 → y (v, k) ∈ B v) →
      symmetrize F 0 degrees y = 0)
    (hfact : ∀ d ∈ degrees, ∀ w : W, d.factorial • w = 0 → w = 0)
    {x : Nat → V} (hx : ∀ v < degrees.length, x v ∈ Submodule.span K (B v)) :
    F (fun q => x q.1) = 0 := by
  suffices h : ∀ v ≤ degrees.length, ∀ y : Nat × Nat → V,
      (∀ u < v, ∀ k < degrees.getD u 0, y (u, k) = x u) →
      (∀ u, v ≤ u → ∀ k < degrees.getD u 0, y (u, k) ∈ B u) →
      symmetrize F v (degrees.drop v) y = 0 by
    have hall := h degrees.length le_rfl (fun q => x q.1) (fun _ _ _ _ => rfl) fun u hu k hk => by
      rw [List.getD_eq_default _ _ hu] at hk
      exact absurd hk (Nat.not_lt_zero k)
    rwa [List.drop_length] at hall
  intro v
  induction v with
  | zero => exact fun _ y _ hy => hB y fun u k => hy u (Nat.zero_le u) k
  | succ v ih =>
    intro hv y hconst hrows
    have hd : degrees.getD v 0 = degrees[v] := List.getD_eq_getElem _ _ hv
    have hlin := (hF v).symmetrize (degrees.drop (v + 1)) (Nat.lt_succ_self v)
    rw [hd] at hlin
    -- before the row is symmetrized, its vectors may be any from the set
    have hset : ∀ z : Fin degrees[v] → V, (∀ k, z k ∈ B v) →
        (∑ σ : Equiv.Perm (Fin degrees[v]), (hlin.ofRow y).domDomCongr σ) z = 0 := by
      intro z hz
      have hrow := ih (Nat.le_of_succ_le hv) (setRow y v z) (fun u hu k hk => ?_)
        fun u hu k hk => ?_
      · rw [List.drop_eq_getElem_cons hv, symmetrize] at hrow
        simpa using hrow
      · rw [setRow_of_ne _ _ _ hu.ne]
        exact hconst u (Nat.lt_succ_of_lt hu) k hk
      · rcases Nat.eq_or_lt_of_le hu with rfl | hu
        · rw [hd] at hk
          have hz := hz ⟨k, hk⟩
          rwa [← setRow_row y v z ⟨k, hk⟩] at hz
        · rw [setRow_of_ne _ _ _ hu.ne']
          exact hrows u hu k hk
    have hspan := eq_zero_of_span _ hset (z := fun _ => x v) fun _ => hx v hv
    have hrow : setRow y v (fun _ : Fin degrees[v] => x v) = y := by
      conv_rhs => rw [← setRow_self (d := degrees[v]) y v]
      refine congrArg (setRow y v) (funext fun k => ?_)
      exact (hconst v (Nat.lt_succ_self v) k (k.isLt.trans_eq hd.symm)).symm
    apply hfact _ (List.getElem_mem hv) _
    simpa [hrow, Fintype.card_perm] using hspan

end

end Nonassoc
