import Mathlib.Algebra.Algebra.Bilinear
import Mathlib.LinearAlgebra.BilinearMap
import Mathlib.LinearAlgebra.Finsupp.LinearCombination
import Mathlib.LinearAlgebra.Finsupp.Supported
import Nonassoc.Linearization
import Nonassoc.Proofs.Elements
import Nonassoc.Proofs.Identities
import Nonassoc.Proofs.Results
import Nonassoc.Proofs.SlotTables
import Nonassoc.Proofs.Symmetrization

/-!
# Completions of a partially known algebra

A `Completion` is a total bilinear product that agrees with the known ones. In it, identities and
equations have values: `Completion.value` for an identity whose occurrences are given vectors, and
`Completion.pairsValue` for the left side of an equation. What a program computes at a substitution
is the value in every completion (`vector_of_multiply`, `vector_of_evaluatePattern`,
`pairsValue_of_evaluate`). Where no product is known, every bilinear product is a completion
(`Completion.ofEmpty`), such as a sum of products of single basis elements
(`PrimeField.singleProduct`).
-/

namespace Nonassoc

open Search (Substitution)

/-! ## Values of patterns -/

namespace Pattern

variable {K V : Type} [CommRing K] [AddCommGroup V] [Module K V] {mul : V →ₗ[K] V →ₗ[K] V}

/-- The value of a pattern whose leaves are given vectors. -/
def value (mul : V →ₗ[K] V →ₗ[K] V) (y : Nat × Nat → V) : Pattern → V
  | leaf v k => y (v, k)
  | product l r => mul (l.value mul y) (r.value mul y)

theorem value_congr {p : Pattern} {y y' : Nat × Nat → V} (h : ∀ q ∈ p.leaves, y q = y' q) :
    p.value mul y = p.value mul y' := by
  induction p with
  | leaf v k => exact h _ (List.mem_singleton_self _)
  | product l r hl hr =>
    simp only [leaves, List.mem_append] at h
    rw [value, value, hl fun q hq => h q (.inl hq), hr fun q hq => h q (.inr hq)]

theorem value_update_of_notMem {p : Pattern} {q : Nat × Nat} (h : q ∉ p.leaves)
    (y : Nat × Nat → V) (x : V) : p.value mul (Function.update y q x) = p.value mul y :=
  value_congr fun _ hq' => Function.update_of_ne (ne_of_mem_of_not_mem hq' h) _ _

/-- A pattern is linear in what stands at a single leaf. -/
theorem exists_linear {p : Pattern} {q : Nat × Nat} (h : p.leaves.count q = 1)
    (y : Nat × Nat → V) : ∃ L : V →ₗ[K] V, ∀ x, p.value mul (Function.update y q x) = L x := by
  induction p with
  | leaf v k =>
    obtain rfl : (v, k) = q := by
      by_contra hne
      simp [leaves, hne] at h
    exact ⟨LinearMap.id, fun x => Function.update_self _ _ _⟩
  | product l r hl hr =>
    rw [leaves, List.count_append] at h
    rcases Nat.eq_zero_or_pos (l.leaves.count q) with hzero | hpos
    · obtain ⟨L, hL⟩ := hr (by omega)
      refine ⟨mul (l.value mul y) ∘ₗ L, fun x => ?_⟩
      rw [value, value_update_of_notMem (List.count_eq_zero.1 hzero), hL]
      rfl
    · obtain ⟨L, hL⟩ := hl (by omega)
      refine ⟨mul.flip (r.value mul y) ∘ₗ L, fun x => ?_⟩
      have hzero : r.leaves.count q = 0 := by omega
      rw [value, value_update_of_notMem (List.count_eq_zero.1 hzero), hL]
      rfl

theorem IsNumbered.rowLinear {p : Pattern} {degrees : List Nat} (h : p.IsNumbered degrees)
    (mul : V →ₗ[K] V →ₗ[K] V) (v : Nat) :
    RowLinear K (fun y => p.value mul y) v (degrees.getD v 0) := fun y k =>
  exists_linear (List.count_eq_one_of_mem h.nodup ((h.mem_iff v k).2 k.isLt)) y

end Pattern

/-- The product in which the basis element `l` times the basis element `r` is the basis element `x`,
and all others are zero. -/
noncomputable def PrimeField.singleProduct (f : PrimeField) (l r x : BasisId) :
    f.Vector →ₗ[ZMod f.prime] f.Vector →ₗ[ZMod f.prime] f.Vector :=
  ((LinearMap.mul (ZMod f.prime) _).compl₁₂ (Finsupp.lapply l) (Finsupp.lapply r)).compr₂
    (Finsupp.lsingle x)

theorem PrimeField.singleProduct_apply {f : PrimeField} (l r x : BasisId) (u v : f.Vector) :
    f.singleProduct l r x u v = Finsupp.single x (u l * v r) := rfl

/-! ## Values of identities and equations -/

/-- The linear combinations of the elements of a basis. -/
noncomputable def PartialAlgebra.elements (a : PartialAlgebra) :
    Submodule (ZMod a.field.prime) a.field.Vector :=
  Finsupp.supported _ _ {b | a.basis.contains b = true}

/-- The linear combinations of the basis elements of a multidegree. -/
noncomputable def PartialAlgebra.elementsOf (a : PartialAlgebra) (n : Multidegree.Name) :
    Submodule (ZMod a.field.prime) a.field.Vector :=
  Finsupp.supported _ _ {b | a.basis.nameOf b = .ok n}

theorem PartialAlgebra.addProduct_eq_ok {a : PartialAlgebra} {l r : BasisId} {x : Scalar}
    {sum sum' : Element} (h : a.addProduct l r x sum = .ok sum') :
    ∃ product, a.products.product? l r = some product ∧
      sum' = product.terms.foldl
        (fun sum (b, z) => sum.addAt a.field b (a.field.mul x z)) sum := by
  unfold addProduct at h
  split at h
  · cases h
  · cases h
    exact ⟨_, ‹_›, rfl⟩

/-- A bilinear product that agrees with the known products. -/
structure Completion (a : PartialAlgebra) where
  mul : a.field.Vector →ₗ[ZMod a.field.prime] a.field.Vector →ₗ[ZMod a.field.prime] a.field.Vector
  agrees : ∀ l r e, a.products.product? l r = some e →
    mul (Finsupp.single l 1) (Finsupp.single r 1) = e.vector a.field

namespace Completion

variable {a : PartialAlgebra} (c : Completion a)

/-- The value of an identity whose occurrences are given vectors. -/
noncomputable def value (e : Identity) (y : Nat × Nat → a.field.Vector) : a.field.Vector :=
  (e.terms.map fun t =>
    (a.field.ofInt t.coefficient : ZMod a.field.prime) • t.pattern.value c.mul y).sum

/-- The identity is zero whatever elements its variables are given. -/
def Satisfies (e : Identity) : Prop :=
  ∀ x : Nat → a.field.Vector, (∀ v, x v ∈ a.elements) → c.value e (fun q => x q.1) = 0

/-- The identity is zero at all combinations of the given basis elements. -/
def VanishesOn (e : Identity) (B : Set BasisId) : Prop :=
  ∀ x : Nat → a.field.Vector,
    (∀ v, x v ∈ (Finsupp.supported _ _ B : Submodule (ZMod a.field.prime) a.field.Vector)) →
      c.value e (fun q => x q.1) = 0

/-- The value of a sum of multiples of products. -/
noncomputable def pairsValue (pairs : List Pair) : a.field.Vector :=
  (pairs.map fun p => (p.coefficient : ZMod a.field.prime) •
    c.mul (Finsupp.single p.left 1) (Finsupp.single p.right 1)).sum

/-- The equation holds. -/
def Holds (q : Equation) : Prop := c.pairsValue q.pairs = 0

theorem pairsValue_flatten (ps : List (List Pair)) :
    c.pairsValue ps.flatten = (ps.map c.pairsValue).sum := by
  simp only [pairsValue, List.map_flatten, List.sum_flatten, List.map_map]
  rfl

theorem value_congr {e : Identity} {y y' : Nat × Nat → a.field.Vector}
    (h : ∀ t ∈ e.terms, ∀ q ∈ t.pattern.leaves, y q = y' q) : c.value e y = c.value e y' := by
  refine congrArg List.sum (List.map_congr_left fun t ht => ?_)
  rw [Pattern.value_congr (h t ht)]

theorem rowLinear_value {e : Identity} (h : e.IsNumbered) (v : Nat) :
    RowLinear (ZMod a.field.prime) (c.value e) v (e.degrees.getD v 0) := by
  have hterms := h.numbered
  simp only [value, RowLinear]
  intro y k
  generalize e.terms = terms at hterms
  induction terms with
  | nil => exact ⟨0, fun x => rfl⟩
  | cons t terms ih =>
    rw [List.forall_mem_cons] at hterms
    obtain ⟨L, hL⟩ := hterms.1.rowLinear c.mul v y k
    obtain ⟨M, hM⟩ := ih hterms.2
    refine ⟨(a.field.ofInt t.coefficient : ZMod a.field.prime) • L + M, fun x => ?_⟩
    rw [List.map_cons, List.sum_cons, hM, LinearMap.add_apply, LinearMap.smul_apply, ← hL]

/-- Unknown products may be zero. -/
noncomputable def truncated (a : PartialAlgebra) : Completion a where
  mul := Finsupp.linearCombination _ fun l => Finsupp.linearCombination _ fun r =>
    ((a.products.product? l r).map fun e => e.vector a.field).getD 0
  agrees l r e h := by simp [h]

/-- Where no product is known, every bilinear product will do. -/
def ofEmpty (h : a.products = .empty)
    (mul : a.field.Vector →ₗ[ZMod a.field.prime] a.field.Vector →ₗ[ZMod a.field.prime]
      a.field.Vector) : Completion a where
  mul
  agrees l r e hproduct := by
    simp [h, ProductTable.product?, ProductTable.empty] at hproduct

/-- The value of the commutator. -/
theorem value_commutator (y : Nat × Nat → a.field.Vector) :
    c.value ⟨['x', 'y'], [1, 1],
        [⟨1, .product (.leaf 0 0) (.leaf 1 0)⟩, ⟨-1, .product (.leaf 1 0) (.leaf 0 0)⟩]⟩ y =
      c.mul (y (0, 0)) (y (1, 0)) - c.mul (y (1, 0)) (y (0, 0)) := by
  simp [value, Pattern.value, PrimeField.cast_ofInt, sub_eq_add_neg]

/-! ## What a program computes -/

theorem vector_of_addProduct {l r : BasisId} {x : Scalar} {sum sum' : Element}
    (hs : sum.IsOver a.field) (h : a.addProduct l r x sum = .ok sum') :
    sum'.IsOver a.field ∧ sum'.vector a.field = sum.vector a.field +
      (x : ZMod a.field.prime) • c.mul (Finsupp.single l 1) (Finsupp.single r 1) := by
  obtain ⟨product, hproduct, rfl⟩ := PartialAlgebra.addProduct_eq_ok h
  rw [c.agrees l r product hproduct]
  exact Element.foldl_addAt_spec hs x product.terms

/-- A product that a program finds is the product of the completion. -/
theorem vector_of_multiply {u v w : Element} (h : a.multiply u v = .ok w) :
    w.IsOver a.field ∧ w.vector a.field = c.mul (u.vector a.field) (v.vector a.field) := by
  have hinner : ∀ x : BasisId × Scalar, ∀ sum sum' : Element, sum.IsOver a.field →
      v.terms.foldlM (fun sum y => a.addProduct x.1 y.1 (a.field.mul x.2 y.2) sum) sum = .ok sum' →
      sum'.IsOver a.field ∧ sum'.vector a.field = sum.vector a.field +
        (x.2 : ZMod a.field.prime) • c.mul (Finsupp.single x.1 1) (v.vector a.field) := by
    intro x sum sum' hs hsum
    have hfold := foldlM_add (fun y _ s s' hs h => c.vector_of_addProduct hs h) hs hsum
    refine ⟨hfold.1, hfold.2.trans (congrArg _ ?_)⟩
    rw [Element.map_vector, List.smul_sum, List.map_map]
    refine congrArg List.sum (List.map_congr_left fun y _ => ?_)
    rw [Function.comp_apply, PrimeField.cast_mul, mul_smul]
  have hfold := foldlM_add (fun x _ s s' hs h => hinner x s s' hs h) Element.IsOver.zero h
  refine ⟨hfold.1, hfold.2.trans ?_⟩
  rw [Element.vector_zero, zero_add, ← LinearMap.flip_apply, Element.map_vector]
  rfl

/-- The basis elements of a substitution as vectors. -/
noncomputable def family (a : PartialAlgebra) (s : Substitution) : Nat × Nat → a.field.Vector :=
  s.family fun b => Finsupp.single b 1

theorem vector_of_evaluatePattern {s : Substitution} {m : Matching} {p : Pattern} {e : Element}
    (h : Linearization.evaluatePattern a s m p = .ok e) :
    e.IsOver a.field ∧ e.vector a.field = p.value c.mul (m.read 0 (family a s)) := by
  induction p generalizing e with
  | leaf v k =>
    rw [Linearization.evaluatePattern, bind_eq_ok] at h
    obtain ⟨j, hj, h⟩ := h
    obtain ⟨b, hb, h⟩ := bind_eq_ok.1 h
    cases h
    refine ⟨Element.IsOver.basis b, ?_⟩
    rw [Element.vector_basis, Pattern.value, Matching.read_of_slot _ _ (mapError_eq_ok.1 hj),
      family, Substitution.family_of_slot (mapError_eq_ok.1 hb)]
  | product l r hl hr =>
    rw [Linearization.evaluatePattern, bind_eq_ok] at h
    obtain ⟨x, hx, h⟩ := h
    obtain ⟨y, hy, h⟩ := bind_eq_ok.1 h
    rw [Pattern.value, ← (hl hx).2, ← (hr hy).2]
    exact c.vector_of_multiply (mapError_eq_ok.1 h)

theorem pairsValue_pairsOf (x : Scalar) (u v : Element) :
    c.pairsValue (Linearization.pairsOf a.field x u v) =
      (x : ZMod a.field.prime) • c.mul (u.vector a.field) (v.vector a.field) := by
  rw [← LinearMap.flip_apply, Element.map_vector, List.smul_sum, List.map_map,
    Linearization.pairsOf, List.flatMap_def, pairsValue_flatten, List.map_map]
  refine congrArg List.sum (List.map_congr_left fun l _ => ?_)
  simp only [Function.comp_apply, LinearMap.flip_apply]
  rw [Element.map_vector, List.smul_sum, List.smul_sum, List.map_map, List.map_map, pairsValue,
    List.map_map]
  refine congrArg List.sum (List.map_congr_left fun r _ => ?_)
  simp only [Function.comp_apply, PrimeField.cast_mul, mul_smul]

theorem pairsValue_of_evaluateTerm {s : Substitution} {m : Matching} {t : Term} {pairs : List Pair}
    (ht : ∃ l r, t.pattern = .product l r)
    (h : Linearization.evaluateTerm a s m t = .ok pairs) :
    c.pairsValue pairs = (a.field.ofInt t.coefficient : ZMod a.field.prime) •
      t.pattern.value c.mul (m.read 0 (family a s)) := by
  obtain ⟨l, r, hp⟩ := ht
  simp only [Linearization.evaluateTerm, hp] at h
  split at h
  · rename_i hzero
    cases h
    rw [hzero, Nat.cast_zero, zero_smul]
    rfl
  · obtain ⟨x, hx, h⟩ := bind_eq_ok.1 h
    obtain ⟨y, hy, h⟩ := bind_eq_ok.1 h
    cases h
    rw [pairsValue_pairsOf, (c.vector_of_evaluatePattern hx).2,
      (c.vector_of_evaluatePattern hy).2, hp, Pattern.value]

/-- The pairs under one matching add up to the value of the identity. -/
theorem pairsValue_of_evaluate {z : Linearization} (hz : z.algebra = a) {s : Substitution}
    {m : Matching} {pairs : List Pair} (he : z.identity.IsNumbered)
    (h : z.evaluate s m = .ok pairs) :
    c.pairsValue pairs = c.value z.identity (m.read 0 (family a s)) := by
  subst hz
  rw [Linearization.evaluate, bind_eq_ok] at h
  obtain ⟨ps, hps, h⟩ := h
  cases h
  rw [pairsValue_flatten, value]
  apply congrArg List.sum
  rw [← List.forall₂_eq_eq_eq, List.forall₂_map_left_iff, List.forall₂_map_right_iff]
  apply (List.forall₂_and_left _ _ |>.2 ⟨he.products, mapM_eq_ok.1 hps⟩).flip.imp
  intro ps t ⟨ht, h⟩
  exact c.pairsValue_of_evaluateTerm ht h

end Completion

end Nonassoc
