import Mathlib.Data.Set.Card
import Nonassoc.Proofs.Completions

/-!
# Equal elements are equal vectors

The coefficients of an element are those of its vector (`cast_get`), so that elements in canonical
form are equal exactly if their coefficients are (`eq_of_get`, `eq_of_vector`). Every operation
keeps the canonical form (`Made.isOver`). The laws of addition and scaling are those of vectors
(`made_canonical`).
-/

namespace Nonassoc.Element

variable {f : PrimeField} {d e : Element}

/-! ## Coefficients -/

theorem termsVector_apply {l : List (BasisId × Scalar)} (h : l.Pairwise fun x y => x.1 < y.1)
    (b : BasisId) : termsVector f l b = (((l.lookup b).getD 0 : Scalar) : ZMod f.prime) := by
  induction l with
  | nil => simp [termsVector]
  | cons c l ih =>
    obtain ⟨c, y⟩ := c
    obtain ⟨hc, hl⟩ := List.pairwise_cons.1 h
    rw [termsVector_cons, Finsupp.add_apply, ih hl]
    by_cases hb : b = c
    · subst hb
      rw [lookup_eq_none_of_lt hc, List.lookup_cons_self]
      simp
    · have hbeq : (b == c) = false := by simpa using hb
      simp [List.lookup_cons, hbeq, Ne.symm hb]

/-- The coefficients are those of the vector. -/
theorem cast_get (h : e.IsOver f) (b : BasisId) :
    ((e.get b : Scalar) : ZMod f.prime) = e.vector f b :=
  (termsVector_apply h.sorted b).symm

theorem mem_terms_iff (h : e.IsOver f) {b : BasisId} {x : Scalar} :
    (b, x) ∈ e.terms ↔ e.get b = x ∧ x ≠ 0 := by
  rw [get]
  constructor
  · intro hx
    exact ⟨by rw [lookup_of_mem h.sorted hx, Option.getD_some], (h.units _ hx).1⟩
  · rintro ⟨rfl, hx⟩
    cases hl : e.terms.lookup b with
    | none =>
      rw [hl] at hx
      exact absurd rfl hx
    | some x => exact mem_of_lookup hl

theorem get_lt (h : e.IsOver f) (b : BasisId) : e.get b < f.prime := by
  by_cases hx : e.get b = 0
  · rw [hx]
    exact NeZero.pos _
  · exact (h.units _ ((mem_terms_iff h).2 ⟨rfl, hx⟩)).2

/-- Elements in canonical form are known by their coefficients. -/
theorem eq_of_get (hd : d.IsOver f) (he : e.IsOver f) (h : ∀ b, d.get b = e.get b) : d = e := by
  have hmem : ∀ x, x ∈ d.terms ↔ x ∈ e.terms := fun x => by
    rw [mem_terms_iff hd, mem_terms_iff he, h]
  have hnodup : ∀ {c : Element}, c.IsOver f → c.terms.Nodup := fun hc =>
    hc.sorted.imp fun hlt heq => by rw [heq] at hlt; exact lt_irrefl _ hlt
  have hperm := (List.perm_ext_iff_of_nodup (hnodup hd) (hnodup he)).2 hmem
  have hterms : d.terms = e.terms :=
    hperm.eq_of_pairwise (fun _ _ _ _ h h' => absurd h h'.asymm) hd.sorted he.sorted
  cases d
  cases e
  exact congrArg Element.mk hterms

theorem eq_of_vector (hd : d.IsOver f) (he : e.IsOver f) (h : d.vector f = e.vector f) : d = e := by
  refine eq_of_get hd he fun b => PrimeField.eq_of_cast (get_lt hd b) (get_lt he b) ?_
  rw [cast_get hd, cast_get he, h]

/-- The basis elements that have a coefficient. -/
def support (e : Element) : Finset BasisId := (e.terms.map (·.1)).toFinset

theorem mem_support_iff (h : e.IsOver f) {b : BasisId} : b ∈ e.support ↔ e.get b ≠ 0 := by
  simp [support, mem_terms_iff h]

theorem nodup_keys (h : e.IsOver f) : (e.terms.map (·.1)).Nodup := by
  rw [List.nodup_iff_pairwise_ne, List.pairwise_map]
  exact h.sorted.imp fun hlt => hlt.ne

theorem encard_support (h : e.IsOver f) : {b | e.get b ≠ 0}.encard = e.size := by
  have hset : {b | e.get b ≠ 0} = (e.support : Set BasisId) :=
    Set.ext fun b => (mem_support_iff h).symm
  rw [hset, Set.encard_coe_eq_coe_finsetCard, support, List.toFinset_card_of_nodup (nodup_keys h),
    List.length_map, size]

/-! ## Addition and scaling of vectors -/

theorem vector_add (h : e.IsOver f) (d : Element) :
    (e.add f d).vector f = e.vector f + d.vector f := by
  have hfold : ∀ (l : List (BasisId × Scalar)) (e : Element), e.IsOver f →
      (l.foldl (fun e y => e.addAt f y.1 y.2) e).vector f = e.vector f + termsVector f l := by
    intro l
    induction l with
    | nil => simp [termsVector]
    | cons y l ih =>
      intro e he
      rw [List.foldl_cons, ih _ (he.addAt y.1 y.2), vector_addAt he, termsVector_cons, add_assoc]
  exact hfold d.terms e h

/-- Setting the coefficient of another basis element. -/
theorem get_set_of_ne (h : e.IsOver f) {b c : BasisId} (hc : c ≠ b) {x : Scalar}
    (hx : x < f.prime) : (e.set b x).get c = e.get c := by
  refine PrimeField.eq_of_cast (get_lt (h.set b hx) c) (get_lt h c) ?_
  have hset := congrArg (· c) (vector_set h b x)
  simpa [Finsupp.single_apply, Ne.symm hc, cast_get h, cast_get (h.set b hx)] using hset

theorem vector_scale (he : e.IsOver f) (x : Scalar) :
    (e.scale f x).vector f = (x : ZMod f.prime) • e.vector f := by
  -- what is scaled so far has no basis element that is still to come
  have hfold : ∀ (l : List (BasisId × Scalar)) (d : Element), l.Pairwise (fun x y => x.1 < y.1) →
      d.IsOver f → (∀ y ∈ l, d.get y.1 = 0) →
        (l.foldl (fun d y => d.set y.1 (f.mul x y.2)) d).vector f =
          d.vector f + (x : ZMod f.prime) • termsVector f l := by
    intro l
    induction l with
    | nil => simp [termsVector]
    | cons y l ih =>
      intro d hl hd hnew
      obtain ⟨hy, hl⟩ := List.pairwise_cons.1 hl
      rw [List.forall_mem_cons] at hnew
      have hlt := PrimeField.mul_lt (f := f) x y.2
      have hset := vector_set hd y.1 (f.mul x y.2)
      rw [hnew.1, Nat.cast_zero, Finsupp.single_zero, add_zero] at hset
      rw [List.foldl_cons, ih _ hl (hd.set y.1 hlt) fun z hz => ?_, hset, PrimeField.cast_mul,
        termsVector_cons, smul_add, Finsupp.smul_single, smul_eq_mul, add_assoc]
      rw [get_set_of_ne hd (hy z hz).ne' hlt, hnew.2 z hz]
  have hscale := hfold e.terms zero he.sorted .zero fun _ _ => rfl
  rw [vector_zero, zero_add] at hscale
  exact hscale

/-! ## Elements that come about by operations -/

/-- The elements that come about from zero and the basis elements by operations with scalars of the
field. -/
inductive Made (f : PrimeField) : Element → Prop
  | zero : Made f .zero
  | basis (b : BasisId) : Made f (.basis b)
  | set {e : Element} (b : BasisId) {x : Scalar} : Made f e → x < f.prime → Made f (e.set b x)
  | addAt {e : Element} (b : BasisId) {x : Scalar} :
    Made f e → x < f.prime → Made f (e.addAt f b x)
  | add {d e : Element} : Made f d → Made f e → Made f (d.add f e)
  | scale {e : Element} {x : Scalar} : Made f e → x < f.prime → Made f (e.scale f x)
  | multiply {a : PartialAlgebra} {u v w : Element} :
    a.field = f → Made f u → Made f v → a.multiply u v = .ok w → Made f w

theorem Made.isOver (h : Made f e) : e.IsOver f := by
  induction h with
  | zero => exact .zero
  | basis b => exact .basis b
  | set b _ hx ih => exact ih.set b hx
  | addAt b _ _ ih => exact ih.addAt b _
  | add _ _ ih _ => exact ih.add _
  | scale _ _ _ => exact .scale _ _
  | multiply hf _ _ hw _ _ =>
    subst hf
    exact ((Completion.truncated _).vector_of_multiply hw).1

/-- Whatever operations an element has come about by, no coefficient is zero and all are residues.
Such elements are equal if their coefficients are; the size is the number of basis elements that
have one. Addition and scaling obey the laws of vectors. -/
theorem made_canonical {d e g : Element} (hd : Made f d) (he : Made f e) (hg : Made f g)
    (x y : Scalar) :
    (d.terms.Pairwise (fun s t => s.1 < t.1) ∧ ∀ t ∈ d.terms, t.2 ≠ 0 ∧ t.2 < f.prime) ∧
      (d = e ↔ ∀ b, d.get b = e.get b) ∧ {b | d.get b ≠ 0}.encard = d.size ∧
      d.add f e = e.add f d ∧ (d.add f e).add f g = d.add f (e.add f g) ∧
      d.add f zero = d ∧ zero.add f d = d ∧
      (d.add f e).scale f x = (d.scale f x).add f (e.scale f x) ∧
      d.scale f (f.add x y) = (d.scale f x).add f (d.scale f y) ∧
      d.scale f (f.mul x y) = (d.scale f y).scale f x ∧
      d.add f (d.scale f (f.ofInt (-1))) = zero := by
  replace hd := hd.isOver
  replace he := he.isOver
  replace hg := hg.isOver
  have hscale := IsOver.scale (f := f)
  refine ⟨⟨hd.sorted, hd.units⟩, ⟨fun h b => h ▸ rfl, eq_of_get hd he⟩, encard_support hd,
    eq_of_vector (hd.add e) (he.add d) ?_, eq_of_vector ((hd.add e).add g) (hd.add _) ?_, rfl,
    eq_of_vector (IsOver.zero.add d) hd ?_, eq_of_vector (hscale _ _) ((hscale x d).add _) ?_,
    eq_of_vector (hscale _ _) ((hscale x d).add _) ?_,
    eq_of_vector (hscale _ _) (hscale _ _) ?_, eq_of_vector (hd.add _) .zero ?_⟩
  · rw [vector_add hd, vector_add he, add_comm]
  · rw [vector_add (hd.add e), vector_add hd, vector_add hd, vector_add he, add_assoc]
  · rw [vector_add .zero, vector_zero, zero_add]
  · rw [vector_scale (hd.add e), vector_add hd, vector_add (hscale x d), vector_scale hd,
      vector_scale he, smul_add]
  · rw [vector_scale hd, vector_add (hscale x d), vector_scale hd, vector_scale hd,
      PrimeField.cast_add, add_smul]
  · rw [vector_scale hd, vector_scale (hscale y d), vector_scale hd, PrimeField.cast_mul, mul_smul]
  · rw [vector_add hd, vector_scale hd, PrimeField.cast_ofInt, vector_zero]
    simp

/-- Modulo seven, one basis element gets six more and is gone. -/
theorem made_canonical_seven :
    let f : PrimeField := ⟨7, by decide, by decide⟩
    let d := ((basis 3).addAt f 1 2).addAt f 3 6
    Made f d ∧ d.terms = [(1, 2)] ∧ {b | d.get b ≠ 0}.encard = 1 ∧
      d.add f (d.scale f (f.ofInt (-1))) = zero := by
  intro f d
  have hd : Made f d := .addAt 3 (.addAt 1 (.basis 3) (by decide)) (by decide)
  obtain ⟨-, -, hsize, -, -, -, -, -, -, -, hneg⟩ := made_canonical hd hd hd 0 0
  have hone : d.size = 1 := by decide
  rw [hone, Nat.cast_one] at hsize
  exact ⟨hd, by decide, hsize, hneg⟩

end Nonassoc.Element
