import Mathlib.Algebra.Order.BigOperators.GroupWithZero.List
import Mathlib.Algebra.Order.Ring.Nat
import Nonassoc.Proofs.Matchings
import Nonassoc.Proofs.Visits

/-!
# The order and the number of matchings

The ways to line up an ascending list come in lexicographic order, the list itself first
(`pairwise_arrangementLists`, `head?_arrangementLists`). So the matchings come in lexicographic order
of their slots, the first variable slowest, and in the first one every occurrence reads its own slot.

Their number is a product of factorials, which is multiplied up factor by factor and given up once it
leaves a machine word. No factor is zero, so a product that has become too large stays too large: the
order of the factors does not matter (`product?_eq`). Main result: `matchings_enumerated`, also for
`allMatchings`, which lists the matchings where there is room for all of them.
-/

namespace Nonassoc

variable {α : Type}

/-! ## Order -/

theorem sublist_of_mem_selections {l : List α} {x : α × List α} (h : x ∈ selections l) :
    x.2.Sublist l := by
  induction l generalizing x with
  | nil => cases h
  | cons a l ih =>
    rw [selections, List.mem_cons] at h
    rcases h with rfl | h
    · exact List.sublist_cons_self a l
    · obtain ⟨y, hy, rfl⟩ := List.mem_map.1 h
      exact (ih hy).cons_cons a

/-- An ascending list is lined up in lexicographic order. -/
theorem pairwise_arrangementLists (n : Nat) {l : List Nat} (h : l.Pairwise (· < ·)) :
    (arrangementLists n l).Pairwise (· < ·) := by
  induction n generalizing l with
  | zero => exact List.pairwise_singleton _ _
  | succ n ih =>
    have hfirst : (selections l).Pairwise fun x y => x.1 < y.1 := by
      rw [← List.pairwise_map, map_fst_selections]
      exact h
    exact pairwise_flatMap_cons hfirst fun x hx => ih (h.sublist (sublist_of_mem_selections hx))

theorem head?_arrangementLists (l : List α) : (arrangementLists l.length l).head? = some l := by
  induction l with
  | nil => rfl
  | cons a l ih =>
    rw [List.length_cons, arrangementLists, selections, List.flatMap_cons, List.head?_append,
      List.head?_map, ih]
    rfl

theorem pairwise_matchingLists (degrees : List Nat) :
    (matchingLists degrees).Pairwise fun m m' => m.flatten < m'.flatten := by
  refine pairwise_choices fun l hl => ?_
  obtain ⟨d, -, rfl⟩ := List.mem_map.1 hl
  refine ⟨pairwise_arrangementLists d List.pairwise_lt_range, d, fun slots hslots => ?_⟩
  rw [(mem_arrangementLists_range.1 hslots).length_eq, List.length_range]

/-- First, every occurrence reads its own slot. -/
theorem head?_matchingLists (degrees : List Nat) :
    (matchingLists degrees).head? = some (degrees.map List.range) := by
  refine head?_choices (List.forall₂_map_left_iff.2 (List.forall₂_map_right_iff.2 ?_))
  refine List.forall₂_same.2 fun d _ => ?_
  have h := head?_arrangementLists (List.range d)
  rwa [List.length_range] at h

theorem nodup_matchingLists (degrees : List Nat) : (matchingLists degrees).Nodup := by
  refine (pairwise_matchingLists degrees).imp ?_
  rintro m _ hlt rfl
  exact List.lt_irrefl _ hlt

/-! ## Number -/

/-- The product of some factors, multiplied one after the other, if no product on the way leaves a
machine word. -/
def product? (factors : List Nat) : Option Nat :=
  factors.foldlM
    (fun product factor =>
      if maximalCount < product * factor then none else some (product * factor)) 1

/-- Without a zero among the factors, only their whole product matters. -/
theorem product?_eq {factors : List Nat} (h : ∀ factor ∈ factors, 0 < factor) :
    product? factors = if factors.prod ≤ maximalCount then some factors.prod else none := by
  suffices hfold : ∀ product ≤ maximalCount,
      factors.foldlM (fun product factor =>
          if maximalCount < product * factor then none else some (product * factor)) product =
        if product * factors.prod ≤ maximalCount then some (product * factors.prod) else none by
    simpa [product?] using hfold 1 (by decide)
  induction factors with
  | nil => intro product hp; simp [hp]
  | cons factor factors ih =>
    intro product hp
    obtain ⟨-, hpos⟩ := List.forall_mem_cons.1 h
    rw [List.foldlM_cons, List.prod_cons, ← Nat.mul_assoc]
    by_cases hlt : maximalCount < product * factor
    · -- later factors do not bring the product back
      have hle := Nat.le_mul_of_pos_right (product * factor) (List.prod_pos hpos)
      rw [if_pos hlt, if_neg (Nat.not_le.2 (hlt.trans_le hle))]
      rfl
    · rw [if_neg hlt]
      exact ih hpos _ (Nat.not_lt.1 hlt)

/-- The factors of all factorials. -/
def factorialFactors (degrees : List Nat) : List Nat := degrees.flatMap fun d => List.range' 1 d

theorem factorialFactors_pos {degrees : List Nat} :
    ∀ factor ∈ factorialFactors degrees, 0 < factor := by
  intro factor hfactor
  obtain ⟨d, -, hd⟩ := List.mem_flatMap.1 hfactor
  exact (List.mem_range'_1.1 hd).1

theorem prod_range'_one (d : Nat) : (List.range' 1 d).prod = d.factorial := by
  induction d with
  | zero => rfl
  | succ d ih =>
    rw [List.range'_1_concat, List.prod_append, ih, List.prod_singleton, Nat.factorial_succ,
      Nat.add_comm 1 d, Nat.mul_comm]

theorem prod_factorialFactors (degrees : List Nat) :
    (factorialFactors degrees).prod = (degrees.map Nat.factorial).prod := by
  induction degrees with
  | nil => rfl
  | cons d degrees ih =>
    rw [factorialFactors, List.flatMap_cons, List.prod_append, prod_range'_one, ← factorialFactors,
      ih, List.map_cons, List.prod_cons]

/-- All matchings as a list, if their number is a machine word and memory `grants` room for so many;
that is asked before the first one is listed. -/
def allMatchings (grants : Nat → Bool) (degrees : List Nat) : Except Failure (List Matching) :=
  match factorialProduct? degrees with
  | none => .error (.exhausted .permutationList)
  | some n =>
    if grants n then .ok (matchings degrees).toList else .error (.exhausted .permutationList)

theorem allMatchings_eq (grants : Nat → Bool) (degrees : List Nat) :
    allMatchings grants degrees =
      if (degrees.map Nat.factorial).prod ≤ maximalCount ∧
          grants (degrees.map Nat.factorial).prod then .ok (matchingLists degrees)
      else .error (.exhausted .permutationList) := by
  rw [allMatchings, factorialProduct?_eq, (yields_matchings degrees).toList, ite_and]
  by_cases h : (degrees.map Nat.factorial).prod ≤ maximalCount
  · simp only [if_pos h]
  · simp only [if_neg h]

/-- The matchings are counted as if they were all listed. -/
theorem matchingCount_eq_length (degrees : List Nat) :
    matchingCount degrees = (allMatchings (· ≤ matchingCapacity) degrees).map List.length := by
  have hcapacity : matchingCapacity ≤ maximalCount := by decide
  rw [matchingCount_eq, allMatchings_eq]
  by_cases h : (degrees.map Nat.factorial).prod ≤ matchingCapacity
  · rw [if_pos h, if_pos ⟨h.trans hcapacity, decide_eq_true h⟩, Except.map, length_matchingLists]
  · rw [if_neg h, if_neg fun hc => h (of_decide_eq_true hc.2)]
    rfl

/-- The matchings are visited each once, in strictly increasing lexicographic order of their slots,
the first variable slowest; they choose a bijection for every variable, first the identities, and are
as many as the product of the factorials. If that leaves a machine word, in whatever order its factors
are multiplied, then memory is exhausted; otherwise they are listed where there is room for them. -/
theorem matchings_enumerated (degrees : List Nat) :
    ∃ l, (matchings degrees).Enumerates l ∧
      (∀ m, m ∈ l ↔ List.Forall₂ (fun slots d => slots.Perm (List.range d)) m degrees) ∧ l.Nodup ∧
      l.Pairwise (fun m m' => m.flatten < m'.flatten) ∧
      l.head? = some (degrees.map List.range) ∧
      l.length = (degrees.map Nat.factorial).prod ∧
      factorialProduct? degrees = product? (factorialFactors degrees) ∧
      (∀ factors : List Nat, factors.Perm (factorialFactors degrees) →
        product? factors = if l.length ≤ maximalCount then some l.length else none) ∧
      (∀ grants, allMatchings grants degrees =
        if l.length ≤ maximalCount ∧ grants l.length then .ok l
        else .error (.exhausted .permutationList)) ∧
      matchingCount degrees = (allMatchings (· ≤ matchingCapacity) degrees).map List.length := by
  have hlength := length_matchingLists degrees
  refine ⟨matchingLists degrees, (yields_matchings degrees).enumerates,
    fun m => mem_matchingLists, nodup_matchingLists degrees, pairwise_matchingLists degrees,
    head?_matchingLists degrees, hlength, ?_, fun factors hfactors => ?_, fun grants => ?_,
    matchingCount_eq_length degrees⟩
  · rw [product?_eq factorialFactors_pos, factorialProduct?_eq, prod_factorialFactors]
  · rw [product?_eq fun factor h => factorialFactors_pos factor (hfactors.subset h),
      hfactors.prod_eq, prod_factorialFactors, hlength]
  · rw [hlength, allMatchings_eq]

/-- A variable without occurrences has one way to line them up. -/
example : (matchings [2, 0, 2]).toList =
    [[[0, 1], [], [0, 1]], [[0, 1], [], [1, 0]], [[1, 0], [], [0, 1]], [[1, 0], [], [1, 0]]] := rfl

end Nonassoc
