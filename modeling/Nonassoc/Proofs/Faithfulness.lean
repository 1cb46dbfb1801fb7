import Nonassoc.Proofs.Failures
import Nonassoc.Proofs.Soundness

/-!
# Faithfulness of the equations

In characteristic above all degrees of an identity, its equations at a target lose nothing. If they
hold in a completion, then the identity is zero there at all vectors with single multidegrees that
add up to the target (`generate_faithful`). Basis elements of these multidegrees in every slot make
a slot table, which a finished run has reached; so the symmetrized value of the identity is zero at
basis elements, and the value itself is zero on their spans.
-/

namespace Nonassoc

open Multidegree (Name Table)
open Search (Substitution IsSlotTable reached)

namespace Search.Substitution

/-- The substitution with the given cells. -/
def ofCells (degrees : List Nat) (cell : Nat → Nat → BasisId) : Substitution :=
  (List.range degrees.length).map fun v => (List.range (degrees.getD v 0)).map (cell v)

variable {degrees : List Nat} {cell : Nat → Nat → BasisId}

theorem slot_ofCells {v k : Nat} (h : k < degrees.getD v 0) :
    (ofCells degrees cell).slot v k = .ok (cell v k) := by
  have hv := lt_length_of_lt_getD h
  rw [List.getD_eq_getElem _ _ hv] at h
  simp [slot, ofCells, hv, h]

/-- Elements of one multidegree for each variable make a slot table. -/
theorem isSlotTable_ofCells {t : Table} {b : Basis} {target : Name} {name : Nat → Name}
    (hcell : ∀ v k, k < degrees.getD v 0 → b.nameOf (cell v k) = .ok (name v))
    (hpos : ∀ v < degrees.length, 0 < t.degreeOf (name v))
    (hsum : ∑ v ∈ Finset.range degrees.length, degrees.getD v 0 • t.count (name v) =
      t.count target) :
    IsSlotTable t b target degrees (ofCells degrees cell) := by
  have hname : ∀ v, (List.range (degrees.getD v 0)).map (fun k => b.nameAt (cell v k)) =
      List.replicate (degrees.getD v 0) (name v) := by
    intro v
    refine List.eq_replicate_iff.2 ⟨by simp, fun n hn => ?_⟩
    obtain ⟨k, hk, rfl⟩ := List.mem_map.1 hn
    exact (Basis.nameOf_eq_ok_iff_nameAt.1 (hcell v k (List.mem_range.1 hk))).2.symm
  have hcount : ∀ v, ((List.range (degrees.getD v 0)).map fun k =>
      t.count (b.nameAt (cell v k))).sum = degrees.getD v 0 • t.count (name v) := by
    intro v
    have := congrArg (fun l => (l.map t.count).sum) (hname v)
    simpa [Function.comp_def] using this
  refine ⟨⟨?_, fun row hrow x hx => ?_, ?_⟩, fun row hrow => ?_⟩
  · apply List.ext_getElem (by simp [ofCells])
    intro v _ hv
    simp [ofCells, List.getElem?_eq_getElem hv]
  · obtain ⟨v, hv, rfl⟩ := List.mem_map.1 hrow
    obtain ⟨k, hk, rfl⟩ := List.mem_map.1 hx
    have hn := Basis.nameOf_eq_ok_iff_nameAt.1 (hcell v k (List.mem_range.1 hk))
    exact ⟨hn.1, hn.2 ▸ hpos v (List.mem_range.1 hv)⟩
  · rw [← hsum, ofCells, List.map_map]
    simp only [Function.comp_def, List.map_map, hcount]
    rfl
  · obtain ⟨v, -, rfl⟩ := List.mem_map.1 hrow
    rw [List.map_map, Function.comp_def, hname]
    exact List.pairwise_replicate.2 (.inr le_rfl)

end Search.Substitution

/-- What the equations of a target demand of a completion is all that the identity demands of it
there, if the characteristic is above the degrees of the identity. -/
theorem generate_faithful {a : PartialAlgebra} (ha : a.basis.Built a.table) {words : Combination}
    {e : Identity} (he : Identity.ofWords words = .ok e) (hp : ∀ d ∈ e.degrees, d < a.field.prime)
    {target : Name} {config : Config} {t : Token}
    (hrun : (generate e target a config t).1.status = .complete ∨
      (generate e target a config t).1.status = .empty)
    (c : Completion a) (hc : ∀ q ∈ (generate e target a config t).1.equations, c.Holds q)
    (name : Nat → Name) (hpos : ∀ v < e.degrees.length, 0 < a.table.degreeOf (name v))
    (hsum : ∑ v ∈ Finset.range e.degrees.length, e.degrees.getD v 0 • a.table.count (name v) =
      a.table.count target)
    (x : Nat → a.field.Vector) (hx : ∀ v < e.degrees.length, x v ∈ a.elementsOf (name v)) :
    c.value e (fun q => x q.1) = 0 := by
  have hnumbered := Identity.isNumbered_of_ofWords he
  obtain ⟨ht, z, hz, hfound⟩ := pairsAt_of_finished hrun
  refine eq_zero_of_symmetrize (c.rowLinear_value hnumbered)
    (B := fun v => (Finsupp.single · 1) '' {b | a.basis.nameOf b = .ok (name v)})
    (fun y hy => ?_) (fun d hd w => PrimeField.eq_zero_of_factorial_smul (hp d hd)) fun v hv => ?_
  · choose! cell hcell using hy
    have htable := Substitution.isSlotTable_ofCells (fun v k hk => (hcell v k hk).1) hpos hsum
    obtain ⟨pairs, hpairs, hmem⟩ := hfound _
      ((Search.mem_reached ht hnumbered.degrees_ne_nil ha hnumbered.degrees_pos).2 htable)
    have hzero : c.pairsValue pairs = 0 := by
      rcases hmem with rfl | hmem
      · rfl
      · exact hc _ hmem
    rw [c.pairsValue_of_pairsAt hz hnumbered hpairs] at hzero
    rw [← hzero]
    refine symmetrize_congr (fun y y' h => c.value_congr fun term hterm q hq => ?_) fun v k hk => ?_
    · exact h q.1 q.2 (((hnumbered.numbered term hterm).mem_iff q.1 q.2).1 hq)
    · rw [Completion.family, Substitution.family_of_slot (Substitution.slot_ofCells hk)]
      exact (hcell v k hk).2.symm
  · rw [← Finsupp.supported_eq_span_single]
    exact hx v hv

/-- The commutator of two generators, in a product in which these commute, though not all elements
do. -/
theorem generate_faithful_commutator :
    ∃ (a : PartialAlgebra) (e : Identity) (c : Completion a),
      Table.ofTarget ⟨[1, 1]⟩ = .ok a.table ∧
      ((Basis.empty a.table).push none 2 >>= (·.push none 1) >>= (·.push (some (0, 1)) 3)) =
        .ok a.basis ∧
      Identity.ofWords [(1, .product (.letter 'x') (.letter 'y')),
        (-1, .product (.letter 'y') (.letter 'x'))] = .ok e ∧
      (∀ d ∈ e.degrees, d < a.field.prime) ∧
      ((generate e 3 a .standard .unlimited).1.status = .complete ∨
        (generate e 3 a .standard .unlimited).1.status = .empty) ∧
      (∀ q ∈ (generate e 3 a .standard .unlimited).1.equations, c.Holds q) ∧
      ¬ c.Satisfies e ∧ c.mul (Finsupp.single 0 1) (Finsupp.single 1 1) ≠ 0 ∧
      c.value e (fun q => Finsupp.single q.1 1) = 0 := by
  obtain ⟨t, b, ht, hb, h1, h2, h3, hname0, hname1, hname2⟩ : ∃ t b,
      Table.ofTarget ⟨[1, 1]⟩ = .ok t ∧
      ((Basis.empty t).push none 2 >>= (·.push none 1) >>= (·.push (some (0, 1)) 3)) = .ok b ∧
      t.entry 1 = .ok ⟨[0, 1]⟩ ∧ t.entry 2 = .ok ⟨[1, 0]⟩ ∧ t.entry 3 = .ok ⟨[1, 1]⟩ ∧
      b.nameOf 0 = .ok 2 ∧ b.nameOf 1 = .ok 1 ∧ b.nameOf 2 = .ok 3 :=
    ⟨_, _, rfl, rfl, rfl, rfl, rfl, rfl, rfl, rfl⟩
  let a : PartialAlgebra := ⟨.standard, t, b, .empty⟩
  let e : Identity := ⟨['x', 'y'], [1, 1],
    [⟨1, .product (.leaf 0 0) (.leaf 1 0)⟩, ⟨-1, .product (.leaf 1 0) (.leaf 0 0)⟩]⟩
  let c := Completion.ofEmpty (a := a) rfl
    (a.field.singleProduct 0 1 2 + a.field.singleProduct 1 0 2 + a.field.singleProduct 0 2 2)
  have hmul : ∀ u v, c.mul u v = Finsupp.single 2 (u 0 * v 1) + Finsupp.single 2 (u 1 * v 0) +
    Finsupp.single 2 (u 0 * v 2) := fun u v => rfl
  have htarget := Table.contains_iff.2 ⟨_, h3⟩
  have hbuilt : b.Built t := by
    obtain ⟨b₂, h, hb⟩ := bind_eq_ok.1 hb
    obtain ⟨b₁, hb₁, hb₂⟩ := bind_eq_ok.1 h
    exact .push (.push (.push .empty hb₁) hb₂) hb
  have he : Identity.ofWords [(1, .product (.letter 'x') (.letter 'y')),
      (-1, .product (.letter 'y') (.letter 'x'))] = .ok e := rfl
  have hnumbered := Identity.isNumbered_of_ofWords he
  have hleaves : ∀ term ∈ e.terms, ∃ u i v j, term.pattern = .product (.leaf u i) (.leaf v j) := by
    intro term hterm
    rcases List.mem_pair.1 hterm with rfl | rfl
    · exact ⟨_, _, _, _, rfl⟩
    · exact ⟨_, _, _, _, rfl⟩
  have hrun : (generate e 3 a .standard .unlimited).1.status.IsFinished :=
    isFinished_iff.2 (status_ne_failed_of_leaves hbuilt hnumbered htarget (by decide) hleaves)
  -- the last basis element does not commute, but has the degree of the target
  have hc : ∀ q ∈ (generate e 3 a .standard .unlimited).1.equations, c.Holds q := by
    refine fun q => c.holds_of_below hbuilt hnumbered (by decide) fun x hx => ?_
    have hzero : ∀ v, x v 2 = 0 := fun v => by
      refine (Finsupp.mem_supported' _ _).1 (hx v) 2 fun hlt => ?_
      change t.degreeOf (b.nameAt 2) < t.degreeOf 3 at hlt
      rw [← (Basis.nameOf_eq_ok_iff_nameAt.1 hname2).2] at hlt
      exact lt_irrefl _ hlt
    rw [c.value_commutator, hmul, hmul, hzero, hzero, mul_zero, mul_zero, mul_comm (x 0 1),
      mul_comm (x 0 0), add_comm (Finsupp.single 2 _), sub_self]
  have hne : ¬ c.Satisfies e := by
    intro h
    have hcontains : ∀ v, b.contains (if v = 0 then 0 else 2) = true := fun v => by
      split
      · exact (Basis.nameOf_eq_ok_iff_nameAt.1 hname0).1
      · exact (Basis.nameOf_eq_ok_iff_nameAt.1 hname2).1
    have hvalue := h (fun v => Finsupp.single (if v = 0 then 0 else 2) 1) fun v =>
      Finsupp.single_mem_supported _ _ (hcontains v)
    rw [c.value_commutator, hmul, hmul] at hvalue
    simp at hvalue
  have hproduct : c.mul (Finsupp.single 0 1) (Finsupp.single 1 1) ≠ 0 := by
    rw [hmul]
    simp
  have hp : ∀ d ∈ e.degrees, d < PrimeField.standard.prime := by decide
  have hname : ∀ v : Nat, v < 2 → b.nameOf v = .ok (2 - v) ∧ 0 < t.degreeOf (2 - v) := by
    intro v hv
    obtain rfl | rfl : v = 0 ∨ v = 1 := by omega
    · exact ⟨hname0, by rw [Table.degreeOf_of_entry h2]; decide⟩
    · exact ⟨hname1, by rw [Table.degreeOf_of_entry h1]; decide⟩
  have hsum : t.count 2 + t.count 1 = t.count 3 :=
    ((Table.add_eq_some_iff (Table.contains_iff.2 ⟨_, h2⟩) (Table.contains_iff.2 ⟨_, h1⟩)).1
      (Table.add_of_entry h2 h1 h3 rfl)).2
  refine ⟨a, e, c, ht, hb, he, hp, hrun, hc, hne, hproduct, generate_faithful hbuilt he hp hrun c hc
    (2 - ·) (fun v hv => (hname v hv).2) ?_ (fun v => Finsupp.single v 1) fun v hv => ?_⟩
  · simpa [e, Finset.sum_range_succ] using hsum
  · exact Finsupp.single_mem_supported _ _ (hname v hv).1

end Nonassoc
