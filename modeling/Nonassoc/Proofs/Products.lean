import Nonassoc.Proofs.CanonicalForm

/-!
# Products of elements

The product of two elements is the bilinear extension of the known products. It fails exactly if
some pair of terms has no known product, at the first such pair (`multiply_eq_error_iff`); otherwise
its coefficients are the sums over all pairs (`get_of_multiply`). So it is additive and homogeneous
in each factor, wherever it is known (`multiply_bilinear`).
-/

namespace Nonassoc

open Element (support)

namespace PartialAlgebra

variable {a : PartialAlgebra} {u v w : Element}

/-! ## Unknown products -/

/-- The first pair of basis elements of two elements whose product is not known; pairs are ordered
by their left elements, and then by their right ones. -/
structure IsFirstUnknown (a : PartialAlgebra) (u v : Element) (l r : BasisId) : Prop where
  left : l ∈ u.support
  right : r ∈ v.support
  unknown : a.products.product? l r = none
  first : ∀ l' ∈ u.support, ∀ r' ∈ v.support, a.products.product? l' r' = none →
    l < l' ∨ l = l' ∧ r ≤ r'

theorem addProduct_eq_error_iff (x y : BasisId × Scalar) (sum : Element) (e : AlgebraError) :
    a.addProduct x.1 y.1 (a.field.mul x.2 y.2) sum = .error e ↔
      a.products.product? x.1 y.1 = none ∧ e = .unknownProduct x.1 y.1 := by
  rw [addProduct]
  cases a.products.product? x.1 y.1 with
  | none => simp [eq_comm]
  | some product => simp

/-- What adding a row of a product fails with: the first unknown product of the row. -/
def RowFails (a : PartialAlgebra) (v : Element) (x : BasisId × Scalar) (e : AlgebraError) : Prop :=
  ∃ before y after, v.terms = before ++ y :: after ∧
    (∀ z ∈ before, a.products.product? x.1 z.1 ≠ none) ∧
      a.products.product? x.1 y.1 = none ∧ e = .unknownProduct x.1 y.1

/-- Adds the products of a term with the terms of `v`. -/
def addRow (a : PartialAlgebra) (v : Element) (x : BasisId × Scalar) (sum : Element) :
    Except AlgebraError Element :=
  v.terms.foldlM (fun sum y => a.addProduct x.1 y.1 (a.field.mul x.2 y.2) sum) sum

theorem multiply_eq_addRow (a : PartialAlgebra) (u v : Element) :
    a.multiply u v = u.terms.foldlM (fun sum x => a.addRow v x sum) .zero :=
  rfl

theorem addRow_eq_error_iff (x : BasisId × Scalar) (sum : Element) (e : AlgebraError) :
    a.addRow v x sum = .error e ↔ a.RowFails v x e := by
  refine (foldlM_eq_error_iff fun sum y e => addProduct_eq_error_iff x y sum e).trans ?_
  simp [RowFails]

theorem exists_rowFails_iff {x : BasisId × Scalar} :
    (∃ e, a.RowFails v x e) ↔ ∃ y ∈ v.terms, a.products.product? x.1 y.1 = none := by
  simp only [← addRow_eq_error_iff (a := a) x .zero]
  refine (exists_foldlM_eq_error_iff fun sum y e => addProduct_eq_error_iff x y sum e).trans ?_
  simp

/-- A product fails exactly if some product of two terms is unknown. -/
theorem exists_multiply_eq_error_iff :
    (∃ e, a.multiply u v = .error e) ↔
      ∃ l ∈ u.support, ∃ r ∈ v.support, a.products.product? l r = none := by
  refine (exists_foldlM_eq_error_iff fun sum x e => addRow_eq_error_iff x sum e).trans ?_
  simp [exists_rowFails_iff, support]

/-- The rows before the one that fails have no unknown product, nor have the terms of that row
before the one that is named. -/
theorem multiply_eq_error_split {e : AlgebraError} (h : a.multiply u v = .error e) :
    ∃ before x after before' y after', u.terms = before ++ x :: after ∧
      v.terms = before' ++ y :: after' ∧
      (∀ x' ∈ before, ∀ y' ∈ v.terms, a.products.product? x'.1 y'.1 ≠ none) ∧
      (∀ y' ∈ before', a.products.product? x.1 y'.1 ≠ none) ∧
      a.products.product? x.1 y.1 = none ∧ e = .unknownProduct x.1 y.1 := by
  obtain ⟨before, x, after, hterms, hbefore, before', y, after', hterms', hbefore', hunknown, he⟩ :=
    (foldlM_eq_error_iff fun sum x e => addRow_eq_error_iff x sum e).1 h
  refine ⟨before, x, after, before', y, after', hterms, hterms', fun x' hx' y' hy' hnone => ?_,
    hbefore', hunknown, he⟩
  obtain ⟨e', he'⟩ := exists_rowFails_iff.2 ⟨y', hy', hnone⟩
  exact hbefore x' hx' e' he'

/-- The only error of a product is the lack of a product of terms. -/
theorem multiply_eq_error {e : AlgebraError} (h : a.multiply u v = .error e) :
    ∃ x ∈ u.terms, ∃ y ∈ v.terms, a.products.product? x.1 y.1 = none ∧
      e = .unknownProduct x.1 y.1 := by
  obtain ⟨before, x, after, before', y, after', hu, hv, -, -, hunknown, he⟩ :=
    multiply_eq_error_split h
  exact ⟨x, by simp [hu], y, by simp [hv], hunknown, he⟩

theorem mem_support {e : Element} {b : BasisId} : b ∈ e.support ↔ ∃ x ∈ e.terms, x.1 = b := by
  simp [support]

theorem isFirstUnknown_of_multiply (hu : u.IsOver a.field) (hv : v.IsOver a.field)
    {e : AlgebraError} (h : a.multiply u v = .error e) :
    ∃ l r, e = .unknownProduct l r ∧ a.IsFirstUnknown u v l r := by
  obtain ⟨before, x, after, before', y, after', hterms, hterms', hbefore, hbefore', hunknown, he⟩ :=
    multiply_eq_error_split h
  have hsorted := hu.sorted
  have hsorted' := hv.sorted
  rw [hterms, List.pairwise_append, List.pairwise_cons] at hsorted
  rw [hterms', List.pairwise_append, List.pairwise_cons] at hsorted'
  have hx : x ∈ u.terms := by simp [hterms]
  have hy : y ∈ v.terms := by simp [hterms']
  refine ⟨x.1, y.1, he, mem_support.2 ⟨x, hx, rfl⟩, mem_support.2 ⟨y, hy, rfl⟩, hunknown,
    fun l hl r hr hnone => ?_⟩
  obtain ⟨x', hx', rfl⟩ := mem_support.1 hl
  obtain ⟨y', hy', rfl⟩ := mem_support.1 hr
  have hrow := hx'
  rw [hterms, List.mem_append, List.mem_cons] at hrow
  rcases hrow with hrow | rfl | hrow
  · exact absurd hnone (hbefore x' hrow y' hy')
  · rw [hterms', List.mem_append, List.mem_cons] at hy'
    rcases hy' with hy' | rfl | hy'
    · exact absurd hnone (hbefore' y' hy')
    · exact .inr ⟨rfl, le_rfl⟩
    · exact .inr ⟨rfl, (hsorted'.2.1.1 y' hy').le⟩
  · exact .inl (hsorted.2.1.1 x' hrow)

/-- There is only one first pair. -/
theorem IsFirstUnknown.unique {l r l' r' : BasisId} (h : a.IsFirstUnknown u v l r)
    (h' : a.IsFirstUnknown u v l' r') : l = l' ∧ r = r' := by
  rcases h.first l' h'.left r' h'.right h'.unknown with hlt | ⟨rfl, hle⟩
  · rcases h'.first l h.left r h.right h.unknown with hgt | ⟨rfl, -⟩
    · exact absurd hlt hgt.asymm
    · exact absurd hlt (lt_irrefl _)
  · rcases h'.first l h.left r h.right h.unknown with hlt | ⟨-, hge⟩
    · exact absurd hlt (lt_irrefl _)
    · exact ⟨rfl, hle.antisymm hge⟩

theorem multiply_eq_error_iff (hu : u.IsOver a.field) (hv : v.IsOver a.field) {e : AlgebraError} :
    a.multiply u v = .error e ↔ ∃ l r, e = .unknownProduct l r ∧ a.IsFirstUnknown u v l r := by
  refine ⟨isFirstUnknown_of_multiply hu hv, ?_⟩
  rintro ⟨l, r, rfl, h⟩
  obtain ⟨e, he⟩ := exists_multiply_eq_error_iff.2 ⟨l, h.left, r, h.right, h.unknown⟩
  obtain ⟨l', r', rfl, h'⟩ := isFirstUnknown_of_multiply hu hv he
  obtain ⟨rfl, rfl⟩ := h.unique h'
  exact he

/-- A product is known if those of all pairs are. -/
theorem exists_multiply_eq_ok_iff :
    (∃ w, a.multiply u v = .ok w) ↔
      ∀ l ∈ u.support, ∀ r ∈ v.support, a.products.product? l r ≠ none := by
  have herror := exists_multiply_eq_error_iff (a := a) (u := u) (v := v)
  cases h : a.multiply u v with
  | error e =>
    rw [h] at herror
    obtain ⟨l, hl, r, hr, hnone⟩ := herror.1 ⟨e, rfl⟩
    exact ⟨nofun, fun hall => absurd hnone (hall l hl r hr)⟩
  | ok w =>
    rw [h] at herror
    refine ⟨fun _ l hl r hr hnone => ?_, fun _ => ⟨w, rfl⟩⟩
    obtain ⟨e, he⟩ := herror.2 ⟨l, hl, r, hr, hnone⟩
    cases he

/-! ## Coefficients of a product -/

/-- The product of two basis elements; zero if it is not known. -/
def productAt (a : PartialAlgebra) (l r : BasisId) : Element :=
  (a.products.product? l r).getD .zero

/-- A sum over the terms of an element is one over its basis elements. -/
theorem sum_terms {V : Type} [AddCommMonoid V] {f : PrimeField} (hu : u.IsOver f)
    (g : BasisId → Scalar → V) :
    (u.terms.map fun x => g x.1 x.2).sum = ∑ l ∈ u.support, g l (u.get l) := by
  rw [support, List.sum_toFinset _ (Element.nodup_keys hu), List.map_map]
  refine congrArg List.sum (List.map_congr_left fun x hx => ?_)
  rw [Function.comp_apply, ((Element.mem_terms_iff hu).1 hx).1]

/-- The products are over the field. -/
def IsOverField (a : PartialAlgebra) : Prop :=
  ∀ l r e, a.products.product? l r = some e → e.IsOver a.field

/-- What a completion makes of two elements is a sum over all pairs of their basis elements. -/
theorem mul_vector_apply (c : Completion a) (hu : u.IsOver a.field) (hv : v.IsOver a.field)
    (t : BasisId) :
    c.mul (u.vector a.field) (v.vector a.field) t = ∑ l ∈ u.support, ∑ r ∈ v.support,
      (u.get l : ZMod a.field.prime) * v.get r *
        c.mul (Finsupp.single l 1) (Finsupp.single r 1) t := by
  have hrow : ∀ l, c.mul (Finsupp.single l 1) (v.vector a.field) t = ∑ r ∈ v.support,
      (v.get r : ZMod a.field.prime) * c.mul (Finsupp.single l 1) (Finsupp.single r 1) t := by
    intro l
    rw [← sum_terms hv fun r y =>
      (y : ZMod a.field.prime) * c.mul (Finsupp.single l 1) (Finsupp.single r 1) t]
    exact Element.map_vector (Finsupp.lapply t ∘ₗ c.mul (Finsupp.single l 1)) v
  have hsum : c.mul (u.vector a.field) (v.vector a.field) t = ∑ l ∈ u.support,
      (u.get l : ZMod a.field.prime) * c.mul (Finsupp.single l 1) (v.vector a.field) t := by
    rw [← sum_terms hu fun l x =>
      (x : ZMod a.field.prime) * c.mul (Finsupp.single l 1) (v.vector a.field) t]
    exact Element.map_vector (Finsupp.lapply t ∘ₗ c.mul.flip (v.vector a.field)) u
  rw [hsum]
  refine Finset.sum_congr rfl fun l _ => ?_
  rw [hrow, Finset.mul_sum]
  exact Finset.sum_congr rfl fun r _ => (mul_assoc _ _ _).symm

/-- The coefficients of a product are sums over all pairs. -/
theorem get_of_multiply (ha : a.IsOverField) (hu : u.IsOver a.field) (hv : v.IsOver a.field)
    (h : a.multiply u v = .ok w) (t : BasisId) :
    ((w.get t : Scalar) : ZMod a.field.prime) = ∑ l ∈ u.support, ∑ r ∈ v.support,
      (u.get l : ZMod a.field.prime) * v.get r * (a.productAt l r).get t := by
  obtain ⟨hw, hvector⟩ := (Completion.truncated a).vector_of_multiply h
  rw [Element.cast_get hw, hvector, mul_vector_apply _ hu hv]
  refine Finset.sum_congr rfl fun l hl => Finset.sum_congr rfl fun r hr => ?_
  obtain ⟨e, he⟩ := Option.ne_none_iff_exists'.1 (exists_multiply_eq_ok_iff.1 ⟨w, h⟩ l hl r hr)
  rw [(Completion.truncated a).agrees l r e he, productAt, he, Option.getD_some,
    Element.cast_get (ha l r e he)]

/-! ## Bilinearity -/

/-- What is in a sum is in one of its parts. -/
theorem mem_support_add {f : PrimeField} {d e : Element} (hd : d.IsOver f) (he : e.IsOver f)
    {b : BasisId} (h : b ∈ (d.add f e).support) : b ∈ d.support ∨ b ∈ e.support := by
  by_contra hnot
  simp only [not_or, Element.mem_support_iff hd, Element.mem_support_iff he, not_not] at hnot
  refine (Element.mem_support_iff (hd.add e)).1 h ?_
  rw [← PrimeField.cast_eq_zero_iff (Element.get_lt (hd.add e) b), Element.cast_get (hd.add e),
    Element.vector_add hd, Finsupp.add_apply, ← Element.cast_get hd, ← Element.cast_get he,
    hnot.1, hnot.2, Nat.cast_zero, add_zero]

/-- A multiple has no new basis elements. -/
theorem mem_support_scale {f : PrimeField} {e : Element} (he : e.IsOver f) {x : Scalar}
    {b : BasisId} (h : b ∈ (e.scale f x).support) : b ∈ e.support := by
  have hscale := Element.IsOver.scale (f := f) x e
  by_contra hnot
  rw [Element.mem_support_iff he, not_not] at hnot
  refine (Element.mem_support_iff hscale).1 h ?_
  rw [← PrimeField.cast_eq_zero_iff (Element.get_lt hscale b), Element.cast_get hscale,
    Element.vector_scale he, Finsupp.smul_apply, ← Element.cast_get he, hnot, Nat.cast_zero,
    smul_zero]

/-- A product that is known is the one that has the vector of the completions. -/
theorem multiply_eq_ok_of_vector
    (hknown : ∀ l ∈ u.support, ∀ r ∈ v.support, a.products.product? l r ≠ none)
    (hw : w.IsOver a.field) (hvector : w.vector a.field =
      (Completion.truncated a).mul (u.vector a.field) (v.vector a.field)) :
    a.multiply u v = .ok w := by
  obtain ⟨w', hw'⟩ := exists_multiply_eq_ok_iff.2 hknown
  obtain ⟨hover, hvector'⟩ := (Completion.truncated a).vector_of_multiply hw'
  rw [hw', Element.eq_of_vector hover hw (hvector'.trans hvector.symm)]

variable {u' v' w' : Element}

theorem multiply_add_left (hu : u.IsOver a.field) (hu' : u'.IsOver a.field)
    (h : a.multiply u v = .ok w) (h' : a.multiply u' v = .ok w') :
    a.multiply (u.add a.field u') v = .ok (w.add a.field w') := by
  obtain ⟨hw, hvector⟩ := (Completion.truncated a).vector_of_multiply h
  obtain ⟨-, hvector'⟩ := (Completion.truncated a).vector_of_multiply h'
  refine multiply_eq_ok_of_vector (fun l hl r hr => ?_) (hw.add w') ?_
  · rcases mem_support_add hu hu' hl with hl | hl
    · exact exists_multiply_eq_ok_iff.1 ⟨w, h⟩ l hl r hr
    · exact exists_multiply_eq_ok_iff.1 ⟨w', h'⟩ l hl r hr
  · rw [Element.vector_add hw, Element.vector_add hu, hvector, hvector', map_add,
      LinearMap.add_apply]

theorem multiply_add_right (hv : v.IsOver a.field) (hv' : v'.IsOver a.field)
    (h : a.multiply u v = .ok w) (h' : a.multiply u v' = .ok w') :
    a.multiply u (v.add a.field v') = .ok (w.add a.field w') := by
  obtain ⟨hw, hvector⟩ := (Completion.truncated a).vector_of_multiply h
  obtain ⟨-, hvector'⟩ := (Completion.truncated a).vector_of_multiply h'
  refine multiply_eq_ok_of_vector (fun l hl r hr => ?_) (hw.add w') ?_
  · rcases mem_support_add hv hv' hr with hr | hr
    · exact exists_multiply_eq_ok_iff.1 ⟨w, h⟩ l hl r hr
    · exact exists_multiply_eq_ok_iff.1 ⟨w', h'⟩ l hl r hr
  · rw [Element.vector_add hw, Element.vector_add hv, hvector, hvector', map_add]

theorem multiply_scale_left (hu : u.IsOver a.field) (h : a.multiply u v = .ok w) (x : Scalar) :
    a.multiply (u.scale a.field x) v = .ok (w.scale a.field x) := by
  obtain ⟨hw, hvector⟩ := (Completion.truncated a).vector_of_multiply h
  refine multiply_eq_ok_of_vector (fun l hl r hr => ?_) (.scale x w) ?_
  · exact exists_multiply_eq_ok_iff.1 ⟨w, h⟩ l (mem_support_scale hu hl) r hr
  · rw [Element.vector_scale hw, Element.vector_scale hu, hvector, map_smul, LinearMap.smul_apply]

theorem multiply_scale_right (hv : v.IsOver a.field) (h : a.multiply u v = .ok w) (x : Scalar) :
    a.multiply u (v.scale a.field x) = .ok (w.scale a.field x) := by
  obtain ⟨hw, hvector⟩ := (Completion.truncated a).vector_of_multiply h
  refine multiply_eq_ok_of_vector (fun l hl r hr => ?_) (.scale x w) ?_
  · exact exists_multiply_eq_ok_iff.1 ⟨w, h⟩ l hl r (mem_support_scale hv hr)
  · rw [Element.vector_scale hw, Element.vector_scale hv, hvector, map_smul]

/-- The product of elements is the bilinear extension of the known products. It fails exactly if
some product of their basis elements is unknown, and names the first one of these. Otherwise it has
no coefficient that is zero, and its coefficients are the sums of those of all products of basis
elements. It is additive in each factor where it is known, and a multiple of a factor has the same
multiple of the product. -/
theorem multiply_bilinear (ha : a.IsOverField) (hu : u.IsOver a.field) (hu' : u'.IsOver a.field)
    (hv : v.IsOver a.field) :
    ((∃ e, a.multiply u v = .error e) ↔
        ∃ l ∈ u.support, ∃ r ∈ v.support, a.products.product? l r = none) ∧
      (∀ e, a.multiply u v = .error e ↔
        ∃ l r, e = .unknownProduct l r ∧ a.IsFirstUnknown u v l r) ∧
      (∀ w, a.multiply u v = .ok w → (∀ x ∈ w.terms, x.2 ≠ 0 ∧ x.2 < a.field.prime) ∧
        ∀ t, ((w.get t : Scalar) : ZMod a.field.prime) = ∑ l ∈ u.support, ∑ r ∈ v.support,
          (u.get l : ZMod a.field.prime) * v.get r * (a.productAt l r).get t) ∧
      (∀ w w', a.multiply u v = .ok w → a.multiply u' v = .ok w' →
        a.multiply (u.add a.field u') v = .ok (w.add a.field w')) ∧
      (∀ w w', a.multiply v u = .ok w → a.multiply v u' = .ok w' →
        a.multiply v (u.add a.field u') = .ok (w.add a.field w')) ∧
      ∀ w x, a.multiply u v = .ok w →
        a.multiply (u.scale a.field x) v = .ok (w.scale a.field x) ∧
          a.multiply u (v.scale a.field x) = .ok (w.scale a.field x) := by
  refine ⟨exists_multiply_eq_error_iff, fun e => multiply_eq_error_iff hu hv, fun w h => ⟨?_, ?_⟩,
    fun w w' => multiply_add_left hu hu', fun w w' => multiply_add_right hu hu', fun w x h => ?_⟩
  · exact ((Completion.truncated a).vector_of_multiply h).1.units
  · exact get_of_multiply ha hu hv h
  · exact ⟨multiply_scale_left hu h x, multiply_scale_right hv h x⟩

/-- A generator whose square is three times another basis element, with no other known product. -/
theorem multiply_bilinear_square :
    ∃ (a : PartialAlgebra) (x y z : Element), a.IsOverField ∧ x.IsOver a.field ∧ y.IsOver a.field ∧
      a.multiply x x = .ok ⟨[(2, 12)]⟩ ∧ a.multiply y x = .ok ⟨[(2, 245)]⟩ ∧
      a.multiply (x.add a.field y) x = .ok ⟨[(2, 6)]⟩ ∧
      a.multiply (x.add a.field z) x = .error (.unknownProduct 2 0) := by
  obtain ⟨t, -⟩ : ∃ t, Multidegree.Table.ofTarget ⟨[2, 0]⟩ = .ok t := ⟨_, rfl⟩
  let square : Element := (Element.basis 2).scale .standard 3
  let a : PartialAlgebra := ⟨.standard, t, .empty t, ⟨(∅ : Std.HashMap _ _).insert (0, 0) square⟩⟩
  have hproduct : ∀ l r, a.products.product? l r = if 0 = l ∧ 0 = r then some square else none :=
    fun l r => by simp [a, ProductTable.product?, Std.HashMap.getElem?_insert]
  have ha : a.IsOverField := by
    intro l r e he
    rw [hproduct] at he
    split at he
    · cases he
      exact .scale _ _
    · cases he
  have hmultiply : ∀ c d, a.multiply ⟨[(0, c)]⟩ ⟨[(0, d)]⟩ = .ok (Element.zero.addAt .standard 2
      (PrimeField.standard.mul (PrimeField.standard.mul c d) 3)) := fun c d => by
    rw [multiply_eq_addRow]
    simp only [addRow, addProduct, hproduct]
    rfl
  let x : Element := ⟨[(0, 2)]⟩
  let y : Element := ⟨[(0, 250)]⟩
  let z : Element := Element.basis 2
  have hx : x.IsOver a.field := Element.IsOver.scale 2 (Element.basis 0)
  have hy : y.IsOver a.field := Element.IsOver.scale 250 (Element.basis 0)
  have hxx : a.multiply x x = .ok ⟨[(2, 12)]⟩ := (hmultiply 2 2).trans (by decide)
  have hyx : a.multiply y x = .ok ⟨[(2, 245)]⟩ := (hmultiply 250 2).trans (by decide)
  have hsum : Element.add .standard ⟨[(2, 12)]⟩ ⟨[(2, 245)]⟩ = ⟨[(2, 6)]⟩ := by decide
  obtain ⟨-, -, -, hadd, -, -⟩ := multiply_bilinear ha hx hy hx
  obtain ⟨-, herror, -, -, -, -⟩ := multiply_bilinear ha (hx.add z) hy hx
  refine ⟨a, x, y, z, ha, hx, hy, hxx, hyx, hsum ▸ hadd _ _ hxx hyx, (herror _).2 ⟨2, 0, rfl, ?_⟩⟩
  have hxz : x.add a.field z = ⟨[(0, 2), (2, 1)]⟩ :=
    show x.add .standard z = ⟨[(0, 2), (2, 1)]⟩ by decide
  rw [hxz]
  refine ⟨by decide, by decide, by rw [hproduct]; rfl, fun l hl r hr hnone => ?_⟩
  have hl : l ∈ ({0, 2} : Finset BasisId) := hl
  have hr : r ∈ ({0} : Finset BasisId) := hr
  rw [hproduct] at hnone
  grind

end PartialAlgebra

end Nonassoc
