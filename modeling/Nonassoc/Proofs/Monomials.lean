import Mathlib.Algebra.Free
import Nonassoc.Proofs.FreeAlgebra

/-!
# The monomials of the truncated free algebra

A monomial is an element of the free magma on the generators. An element of a basis stands for the
monomial that its factors unfold to (`Basis.Unfolds`). In the truncated free algebra the elements
stand one-to-one for the monomials that the target and the degree of truncation leave room for, and
the known products are those with a monomial in this range (`PartialAlgebra.IsMonomial`,
`PartialAlgebra.free_isMonomial`).
-/

namespace Nonassoc

open Multidegree (Name Table)

/-- A nonassociative monomial in the generators. -/
abbrev Monomial := FreeMagma Nat

/-- How often each generator occurs in a monomial. -/
def Monomial.count : Monomial → Nat → Nat
  | .of g => Pi.single g 1
  | .mul u v => count u + count v

/-! ## Unfolding factors -/

namespace Basis

/-- The monomial of an element: a generator is told by its multidegree, and any other element stands
for the product of the monomials of its factors. -/
inductive Unfolds (t : Table) (b : Basis) : BasisId → Monomial → Prop
  | generator {x : BasisId} {n : Name} {g : Nat} :
      b.factors x = .ok none → b.nameOf x = .ok n → t.count n = Pi.single g 1 →
        Unfolds t b x (.of g)
  | product {x l r : BasisId} {u v : Monomial} :
      b.factors x = .ok (some (l, r)) → Unfolds t b l u → Unfolds t b r v →
        Unfolds t b x (.mul u v)

variable {t : Table} {b : Basis}

/-- An element stands for one monomial only. -/
theorem Unfolds.monomial_unique {x : BasisId} {u v : Monomial} (hu : Unfolds t b x u)
    (hv : Unfolds t b x v) : u = v := by
  induction hu generalizing v with
  | generator hx hn hg =>
    cases hv with
    | generator _ hn' hg' =>
      cases hn.symm.trans hn'
      exact congrArg FreeMagma.of (Multidegree.eq_of_single (hg.symm.trans hg'))
    | product hx' => cases hx.symm.trans hx'
  | product hx _ _ ihl ihr =>
    cases hv with
    | generator hx' => cases hx.symm.trans hx'
    | product hx' hl hr =>
      cases hx.symm.trans hx'
      rw [ihl hl, ihr hr]

theorem exists_factors {x : BasisId} (hx : b.contains x = true) : ∃ o, b.factors x = .ok o := by
  obtain ⟨n, hn⟩ := contains_iff.1 hx
  obtain ⟨e, he, -⟩ := nameOf_eq_ok_iff.1 hn
  exact ⟨e.factors, factors_eq_ok_iff.2 ⟨e, he, rfl⟩⟩

end Basis

/-! ## Monomials of what is entered -/

namespace PartialAlgebra

section
variable {f : PrimeField} {t : Table} {s : Basis × ProductTable} {done : Name → Prop}

/-- The multidegree of a product is the sum of those of its factors. -/
theorem FilledUpTo.names_of_factors (h : FilledUpTo f t done s) {x l r : BasisId}
    (hx : s.1.factors x = .ok (some (l, r))) :
    ∃ m n k, s.1.nameOf l = .ok m ∧ s.1.nameOf r = .ok n ∧ s.1.nameOf x = .ok k ∧
      t.count m + t.count n = t.count k := by
  have hproduct := (h.recorded l r _).2 ⟨x, rfl, hx⟩
  obtain ⟨-, m, n, hm, hn, hterms⟩ := h.entered.typed l r _ hproduct
  obtain ⟨k, hk, hadd⟩ := hterms (x, 1) (List.mem_singleton_self _)
  have hbasis := h.entered.basis
  exact ⟨m, n, k, hm, hn, hk, ((Table.add_eq_some_iff (hbasis.contains_of_nameOf hm)
    (hbasis.contains_of_nameOf hn)).1 hadd).2⟩

/-- The product of two elements is the only one with these factors. -/
theorem FilledUpTo.eq_of_factors (h : FilledUpTo f t done s) {x y l r : BasisId}
    (hx : s.1.factors x = .ok (some (l, r))) (hy : s.1.factors y = .ok (some (l, r))) : x = y := by
  have hproduct := (h.recorded l r _).2 ⟨x, rfl, hx⟩
  have hproduct' := (h.recorded l r _).2 ⟨y, rfl, hy⟩
  have heq : Element.basis x = Element.basis y := Option.some_inj.1 (hproduct.symm.trans hproduct')
  simpa [Element.basis] using heq

/-- An element of degree one has no factors. -/
theorem FilledUpTo.factors_of_degreeOf_eq_one (h : FilledUpTo f t done s) {x : BasisId} {n : Name}
    (hn : s.1.nameOf x = .ok n) (hone : t.degreeOf n = 1) : s.1.factors x = .ok none := by
  obtain ⟨o, ho⟩ := Basis.exists_factors (Basis.contains_iff.2 ⟨n, hn⟩)
  cases o with
  | none => exact ho
  | some factors =>
    obtain ⟨m, m', k, hl, hr, hk, hsum⟩ := h.names_of_factors ho
    cases hn.symm.trans hk
    have hdegrees := Table.degreeOf_add hsum
    have hm := (h.names _ m hl).2
    have hm' := (h.names _ m' hr).2
    omega

/-- The multidegree of an element is that of its monomial. -/
theorem FilledUpTo.name_of_unfolds (h : FilledUpTo f t done s) {x : BasisId} {u : Monomial}
    (hu : s.1.Unfolds t x u) :
    ∃ n, s.1.nameOf x = .ok n ∧ t.count n = u.count ∧ t.degreeOf n = u.length := by
  induction hu with
  | @generator x n g hx hn hg =>
    obtain ⟨n', hn', hone⟩ := h.unfactored x hx
    cases hn.symm.trans hn'
    exact ⟨n, hn, hg, hone⟩
  | product hx _ _ ihl ihr =>
    obtain ⟨m, n, k, hm, hn, hk, hsum⟩ := h.names_of_factors hx
    obtain ⟨m', hm', hcount, hlength⟩ := ihl
    obtain ⟨n', hn', hcount', hlength'⟩ := ihr
    cases hm.symm.trans hm'
    cases hn.symm.trans hn'
    have hdegrees := Table.degreeOf_add hsum
    refine ⟨k, hk, ?_, ?_⟩
    · rw [← hsum, hcount, hcount']
      rfl
    · rw [← hdegrees, hlength, hlength']
      rfl

/-- Every element stands for a monomial: its factors come before it, and without factors it is a
generator. -/
theorem FilledUpTo.exists_unfolds (h : FilledUpTo f t done s) {x : BasisId}
    (hx : s.1.contains x = true) : ∃ u, s.1.Unfolds t x u := by
  induction x using Nat.strong_induction_on with
  | _ x ih =>
    obtain ⟨o, ho⟩ := Basis.exists_factors hx
    cases o with
    | none =>
      obtain ⟨n, hn, hone⟩ := h.unfactored x ho
      obtain ⟨g, -, hg⟩ := Table.exists_of_degreeOf_eq_one hone
      exact ⟨.of g, .generator ho hn hg⟩
    | some factors =>
      obtain ⟨hl, hr⟩ := h.entered.basis.factors_lt ho
      obtain ⟨m, n, -, hm, hn, -⟩ := h.names_of_factors ho
      obtain ⟨u, hu⟩ := ih _ hl (Basis.contains_iff.2 ⟨m, hm⟩)
      obtain ⟨v, hv⟩ := ih _ hr (Basis.contains_iff.2 ⟨n, hn⟩)
      exact ⟨.mul u v, .product ho hu hv⟩

/-- A monomial belongs to one element only. -/
theorem FilledUpTo.eq_of_unfolds (h : FilledUpTo f t done s) {x y : BasisId} {u : Monomial}
    (hx : s.1.Unfolds t x u) (hy : s.1.Unfolds t y u) : x = y := by
  induction hx generalizing y with
  | generator hx hn hg =>
    cases hy with
    | generator hy hn' hg' =>
      obtain ⟨m, hm, hone⟩ := h.unfactored _ hx
      cases hn.symm.trans hm
      have hbasis := h.entered.basis
      have hcontains := hbasis.contains_of_nameOf hn
      cases Table.eq_of_count hcontains (hbasis.contains_of_nameOf hn') (hg.trans hg'.symm)
      obtain ⟨z, hz⟩ := h.generators _ hcontains hone
      exact ((hz _).1 hn).trans ((hz _).1 hn').symm
  | product hx _ _ ihl ihr =>
    cases hy with
    | product hy hl hr =>
      cases ihl hl
      cases ihr hr
      exact h.eq_of_factors hx hy

variable {d : Nat}

/-- The known products are those for which the target and the degree of truncation leave room. -/
theorem FilledUpTo.product?_iff (h : FilledUpTo f t (fun n => t.degreeOf n ≤ max 1 d) s)
    {l r : BasisId} :
    (∃ e, s.2.product? l r = some e) ↔ ∃ m n, s.1.nameOf l = .ok m ∧ s.1.nameOf r = .ok n ∧
      t.count m + t.count n ≤ t.target.count ∧
        t.degreeOf m + t.degreeOf n ≤ min d t.target.degree := by
  have hbasis := h.entered.basis
  refine (h.products l r).trans ⟨?_, ?_⟩
  · rintro ⟨m, n, k, hm, hn, hadd, hk⟩
    obtain ⟨-, hsum⟩ := (Table.add_eq_some_iff (hbasis.contains_of_nameOf hm)
      (hbasis.contains_of_nameOf hn)).1 hadd
    have hdegrees := Table.degreeOf_add hsum
    have hmpos := (h.names l m hm).2
    have hnpos := (h.names r n hn).2
    have htarget := Table.degreeOf_le_target (t := t) k
    exact ⟨m, n, hm, hn, hsum ▸ Table.count_le_target k, by omega⟩
  · rintro ⟨m, n, hm, hn, hle, hdegree⟩
    obtain ⟨k, hk, hcount⟩ := Table.exists_name hle
    have hdegrees := Table.degreeOf_add hcount.symm
    exact ⟨m, n, k, hm, hn, (Table.add_eq_some_iff (hbasis.contains_of_nameOf hm)
      (hbasis.contains_of_nameOf hn)).2 ⟨hk, hcount.symm⟩, by omega⟩

/-- Every monomial in range belongs to an element. -/
theorem FilledUpTo.exists_of_monomial
    (h : FilledUpTo f t (fun n => t.degreeOf n ≤ max 1 d) s) {u : Monomial}
    (hcount : u.count ≤ t.target.count) (hlength : u.length ≤ max 1 d) :
    ∃ x, s.1.Unfolds t x u := by
  induction u with
  | of g =>
    have hg : 0 < t.target.count g := by
      have hle := hcount g
      rwa [Monomial.count, Pi.single_eq_same] at hle
    obtain ⟨n, hn, hsingle⟩ := Table.exists_generator hg
    have hone := Table.degreeOf_generator hg hsingle
    obtain ⟨x, hx⟩ := h.generators n hn hone
    have hname := (hx x).2 rfl
    exact ⟨x, .generator (h.factors_of_degreeOf_eq_one hname hone) hname hsingle⟩
  | mul u v ihu ihv =>
    replace hlength : u.length + v.length ≤ max 1 d := hlength
    replace hcount : Monomial.count u + Monomial.count v ≤ t.target.count := hcount
    have hu := FreeMagma.length_pos u
    have hv := FreeMagma.length_pos v
    obtain ⟨l, hl⟩ := ihu (fun g => (Nat.le_add_right _ _).trans (hcount g)) (by omega)
    obtain ⟨r, hr⟩ := ihv (fun g => (Nat.le_add_left _ _).trans (hcount g)) (by omega)
    obtain ⟨m, hm, hmcount, hmlength⟩ := h.name_of_unfolds hl
    obtain ⟨n, hn, hncount, hnlength⟩ := h.name_of_unfolds hr
    obtain ⟨k, hk, hkcount⟩ := Table.exists_name hcount
    have hadd : t.add m n = .ok (some k) :=
      (Table.add_eq_some_iff (h.entered.basis.contains_of_nameOf hm)
        (h.entered.basis.contains_of_nameOf hn)).2 ⟨hk, by rw [hmcount, hncount, hkcount]⟩
    have hdegrees := Table.degreeOf_add (t := t) (a := m) (b := n) (c := k)
      (by rw [hmcount, hncount, hkcount])
    obtain ⟨e, he⟩ := (h.products l r).2 ⟨m, n, k, hm, hn, hadd, by omega⟩
    obtain ⟨x, -, hx⟩ := (h.recorded l r e).1 he
    exact ⟨x, .product hx hl hr⟩

end

/-! ## The algebra -/

/-- The elements stand one-to-one for the monomials below the target whose degree is at most `d`, or
one, and have their multidegrees. The known products are those of degree at most `d` below the
target, each the one element with these factors. -/
structure IsMonomial (a : PartialAlgebra) (d : Nat) : Prop where
  monomial : ∀ x, a.basis.contains x = true → ∃! u, a.basis.Unfolds a.table x u
  range : ∀ x u, a.basis.Unfolds a.table x u → a.basis.contains x = true ∧
    u.count ≤ a.table.target.count ∧ 1 ≤ u.length ∧
      u.length ≤ max 1 (min d a.table.target.degree)
  name : ∀ x u, a.basis.Unfolds a.table x u →
    ∃ n, a.basis.nameOf x = .ok n ∧ a.table.count n = u.count
  element : ∀ u : Monomial, u.count ≤ a.table.target.count →
    u.length ≤ max 1 (min d a.table.target.degree) → ∃! x, a.basis.Unfolds a.table x u
  known : ∀ l r, (∃ e, a.products.product? l r = some e) ↔
    ∃ m n, a.basis.nameOf l = .ok m ∧ a.basis.nameOf r = .ok n ∧
      a.table.count m + a.table.count n ≤ a.table.target.count ∧
        a.table.degreeOf m + a.table.degreeOf n ≤ min d a.table.target.degree
  product : ∀ l r e, a.products.product? l r = some e → ∃ x, e = Element.basis x ∧
    ∀ y, a.basis.factors y = .ok (some (l, r)) ↔ y = x

theorem FilledUpTo.isMonomial {f : PrimeField} {t : Table} {s : Basis × ProductTable} {d : Nat}
    (h : FilledUpTo f t (fun n => t.degreeOf n ≤ max 1 d) s) : IsMonomial ⟨f, t, s.1, s.2⟩ d where
  monomial x hx := by
    obtain ⟨u, hu⟩ := h.exists_unfolds hx
    exact ⟨u, hu, fun v hv => hv.monomial_unique hu⟩
  range x u hu := by
    obtain ⟨n, hn, hcount, hlength⟩ := h.name_of_unfolds hu
    have hdone := (h.names x n hn).1
    have htarget := Table.degreeOf_le_target (t := t) n
    exact ⟨Basis.contains_iff.2 ⟨n, hn⟩, hcount ▸ Table.count_le_target n, FreeMagma.length_pos u,
      show u.length ≤ max 1 (min d t.target.degree) by omega⟩
  name x u hu := by
    obtain ⟨n, hn, hcount, -⟩ := h.name_of_unfolds hu
    exact ⟨n, hn, hcount⟩
  element u hcount hlength := by
    obtain ⟨x, hx⟩ := h.exists_of_monomial hcount
      (hlength.trans (max_le_max_left 1 (min_le_left d _)))
    exact ⟨x, hx, fun y hy => h.eq_of_unfolds hy hx⟩
  known l r := h.product?_iff
  product l r e he := by
    obtain ⟨x, rfl, hx⟩ := (h.recorded l r e).1 he
    exact ⟨x, rfl, fun y => ⟨fun hy => h.eq_of_factors hy hx, fun hy => hy ▸ hx⟩⟩

/-- The truncated free algebra can be set up for every target with a generator, over any field and to
any degree, and its elements are the monomials. There can be as many generators as a list has room
for bytes. -/
theorem free_isMonomial (f : PrimeField) {target : Multidegree} (hpos : 0 < target.generators)
    (hsize : target.generators ≤ byteCapacity) (maxDegree : Nat) :
    ∃ a, free f target maxDegree = .ok a ∧ a.field = f ∧ Table.ofTarget target = .ok a.table ∧
      a.table.target = target ∧ a.IsMonomial maxDegree := by
  obtain ⟨t, s, ht, htarget, hfree, hfilled⟩ := exists_free_filledUpTo f hpos hsize maxDegree
  exact ⟨_, hfree, rfl, ht, htarget, hfilled.isMonomial⟩

/-- Below `(2,1)`, up to degree three, `(xx)y` is one of the elements. -/
theorem free_isMonomial_two_one :
    ∃ a, free .standard ⟨[2, 1]⟩ 3 = .ok a ∧ a.IsMonomial 3 ∧
      ∃! x, a.basis.Unfolds a.table x (.mul (.mul (.of 0) (.of 0)) (.of 1)) := by
  have hpos : 0 < (⟨[2, 1]⟩ : Multidegree).generators := by decide
  obtain ⟨a, ha, -, -, htarget, hmonomial⟩ := free_isMonomial .standard hpos (by decide) 3
  refine ⟨a, ha, hmonomial, hmonomial.element _ ?_ ?_⟩
  · rw [htarget]
    intro g
    rcases g with _ | _ | g <;> simp [Monomial.count, Multidegree.count]
  · rw [htarget]
    decide

end PartialAlgebra

end Nonassoc
