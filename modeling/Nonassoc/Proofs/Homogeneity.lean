import Mathlib.Algebra.BigOperators.Fin
import Nonassoc.Proofs.Completions
import Nonassoc.Proofs.Histories

/-!
# Multidegrees of values

The multidegrees of the leaves of a term add up to the target at every slot table and under every
matching (`sum_leaves`, `placesSum_read`, `placesSum_family`), and the terms of a value have the sum
of the multidegrees of its leaves (`hasCount_of_evaluatePattern`).
-/

namespace Nonassoc

open Multidegree (Table)
open Search (Substitution)

/-! ## Sums over all places -/

section
variable {V : Type} [AddCommMonoid V] {degrees : List Nat}

/-- The sum over the places of all rows. -/
def placesSum (degrees : List Nat) (y : Nat × Nat → V) : V :=
  ∑ v ∈ Finset.range degrees.length, ∑ k ∈ Finset.range (degrees.getD v 0), y (v, k)

/-- The leaves of a pattern are all places. -/
theorem sum_leaves {p : Pattern} (h : p.IsNumbered degrees) (y : Nat × Nat → V) :
    (p.leaves.map y).sum = placesSum degrees y := by
  rw [← List.sum_toFinset _ h.nodup]
  apply Finset.sum_finset_product _ _ _
  intro q
  rw [List.mem_toFinset, Finset.mem_range, Finset.mem_range, h.mem_iff]
  exact (and_iff_right_of_imp lt_length_of_lt_getD).symm

/-- The number of leaves is the degree. -/
theorem length_leaves {p : Pattern} (h : p.IsNumbered degrees) : p.leaves.length = degrees.sum := by
  calc p.leaves.length = (p.leaves.map fun _ => 1).sum := by simp
    _ = placesSum degrees fun _ => 1 := sum_leaves h _
    _ = ∑ v ∈ Finset.range degrees.length, degrees.getD v 0 := by simp [placesSum]
    _ = degrees.sum := by
      rw [Finset.sum_range, ← Fin.sum_univ_getElem]
      exact Finset.sum_congr rfl fun v _ => List.getD_eq_getElem _ _ v.isLt

/-- A matching reorders every row. -/
theorem placesSum_read {m : Matching} (hm : m ∈ matchingLists degrees) (y : Nat × Nat → V) :
    placesSum degrees (m.read 0 y) = placesSum degrees y := by
  apply Finset.sum_congr rfl
  intro v hv
  rw [mem_matchingLists] at hm
  have hv := Finset.mem_range.1 hv
  have hvm : v < m.length := hm.length_eq ▸ hv
  have hperm : m[v].Perm (List.range degrees[v]) := hm.get hvm hv
  have hlen : m[v].length = degrees[v] := by simpa using hperm.length_eq
  rw [List.getD_eq_getElem _ _ hv]
  have hread : (List.range degrees[v]).map (fun k => m.read 0 y (v, k)) =
      m[v].map fun j => y (v, j) := by
    apply List.ext_getElem (by simp [hlen])
    intro k hk hk'
    have hkm : k < m[v].length := by simpa using hk'
    simp [Matching.read, hvm, hkm]
  calc ∑ k ∈ Finset.range degrees[v], m.read 0 y (v, k)
      = ((List.range degrees[v]).map fun k => m.read 0 y (v, k)).sum := rfl
    _ = (m[v].map fun j => y (v, j)).sum := by rw [hread]
    _ = ((List.range degrees[v]).map fun j => y (v, j)).sum := (hperm.map _).sum_eq
    _ = ∑ k ∈ Finset.range degrees[v], y (v, k) := rfl

/-- The places of a substitution are its cells. -/
theorem placesSum_family {s : Substitution} (hs : s.map List.length = degrees)
    (value : BasisId → V) :
    placesSum degrees (s.family value) = (s.map fun row => (row.map value).sum).sum := by
  subst hs
  have hrow : ∀ v (hv : v < s.length), ((List.range s[v].length).map fun k =>
      s.family value (v, k)) = s[v].map value := by
    intro v hv
    apply List.ext_getElem (by simp)
    intro k hk hk'
    have hk : k < s[v].length := by simpa using hk
    simp [Substitution.family, Substitution.slot, hv, hk]
  have hrows : ((List.range (s.map List.length).length).map fun v =>
      ((List.range ((s.map List.length).getD v 0)).map fun k => s.family value (v, k)).sum) =
      s.map fun row => (row.map value).sum := by
    apply List.ext_getElem (by simp)
    intro v hv hv'
    have hv : v < s.length := by simpa using hv
    rw [List.getElem_map, List.getElem_map, List.getElem_range,
      List.getD_eq_getElem _ _ (by simpa using hv), List.getElem_map, hrow v hv]
  exact congrArg List.sum hrows

end

/-! ## The multidegree of a value -/

/-- An element of the basis with the given multiplicities. -/
def PartialAlgebra.HasCount (a : PartialAlgebra) (count : Nat → Nat) (b : BasisId) : Prop :=
  a.basis.contains b = true ∧ a.table.count (a.basis.nameAt b) = count

variable {a : PartialAlgebra}

/-- The terms of a product are terms of known products. -/
theorem forall_of_multiply {P Q R : BasisId → Prop}
    (hprod : ∀ l r e, P l → Q r → a.products.product? l r = some e → ∀ x ∈ e.terms, R x.1)
    {u v w : Element} (hu : ∀ x ∈ u.terms, P x.1) (hv : ∀ x ∈ v.terms, Q x.1)
    (h : a.multiply u v = .ok w) : ∀ x ∈ w.terms, R x.1 := by
  have hzero : ∀ x ∈ Element.zero.terms, R x.1 := nofun
  refine foldlM_inv (P := fun e : Element => ∀ x ∈ e.terms, R x.1) (fun l hl s s' hs hs' => ?_)
    hzero h
  refine foldlM_inv (P := fun e : Element => ∀ x ∈ e.terms, R x.1) (fun r hr s s' hs hs' => ?_)
    hs hs'
  obtain ⟨e, he, rfl⟩ := PartialAlgebra.addProduct_eq_ok hs'
  have hterms := hprod l.1 r.1 e (hu l hl) (hv r hr) he
  refine List.foldlRecOn (motive := fun e : Element => ∀ x ∈ e.terms, R x.1) e.terms _ hs
    fun sum hsum y hy x hx => ?_
  rcases Element.mem_of_mem_addAt hx with hx | hx
  · exact hx ▸ hterms y hy
  · exact hsum x hx

/-- The product of elements of two multidegrees has the sum of them. -/
theorem hasCount_of_multiply (ha : a.Built) {m n : Nat → Nat} {u v w : Element}
    (hu : ∀ x ∈ u.terms, a.HasCount m x.1) (hv : ∀ x ∈ v.terms, a.HasCount n x.1)
    (h : a.multiply u v = .ok w) : ∀ x ∈ w.terms, a.HasCount (m + n) x.1 := by
  refine forall_of_multiply (fun l r e hl hr he x hx => ?_) hu hv h
  obtain ⟨-, i, j, hi, hj, hterms⟩ := ha.typed l r e he
  obtain ⟨k, hk, hadd⟩ := hterms x hx
  obtain ⟨hcl, rfl⟩ := Basis.nameOf_eq_ok_iff_nameAt.1 hi
  obtain ⟨hcr, rfl⟩ := Basis.nameOf_eq_ok_iff_nameAt.1 hj
  obtain ⟨hcx, rfl⟩ := Basis.nameOf_eq_ok_iff_nameAt.1 hk
  refine ⟨hcx, ?_⟩
  rw [← hl.2, ← hr.2]
  exact ((Table.add_eq_some_iff (ha.basis.contains_nameAt hcl)
    (ha.basis.contains_nameAt hcr)).1 hadd).2.symm

/-- The terms of a value have the sum of the multidegrees of the leaves. -/
theorem hasCount_of_evaluatePattern (ha : a.Built) {s : Substitution}
    (hs : ∀ row ∈ s, ∀ x ∈ row, a.basis.contains x = true) {m : Matching} {p : Pattern}
    {e : Element} (h : Linearization.evaluatePattern a s m p = .ok e) :
    ∀ x ∈ e.terms, a.HasCount
      (p.leaves.map (m.read 0 (s.family fun b => a.table.count (a.basis.nameAt b)))).sum x.1 := by
  induction p generalizing e with
  | leaf v k =>
    obtain ⟨j, hj, h⟩ := bind_eq_ok.1 h
    obtain ⟨b, hb, h⟩ := bind_eq_ok.1 h
    cases h
    intro x hx
    obtain rfl := List.mem_singleton.1 hx
    obtain ⟨row, hrow, hmem⟩ := Search.mem_of_slot (mapError_eq_ok.1 hb)
    refine ⟨hs row hrow b hmem, ?_⟩
    simp [Pattern.leaves, Matching.read_of_slot _ _ (mapError_eq_ok.1 hj),
      Substitution.family_of_slot (mapError_eq_ok.1 hb)]
  | product l r hl hr =>
    obtain ⟨u, hu, h⟩ := bind_eq_ok.1 h
    obtain ⟨v, hv, h⟩ := bind_eq_ok.1 h
    rw [Pattern.leaves, List.map_append, List.sum_append]
    exact hasCount_of_multiply ha (hl hu) (hr hv) (mapError_eq_ok.1 h)

end Nonassoc
