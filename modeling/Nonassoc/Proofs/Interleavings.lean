import Nonassoc.Proofs.Blocks

/-!
# Products entered while the basis grows

A basis and a product table may be filled in any order: elements and generators are entered into the
basis, products into the table, and each of these may fail (`Construction.Step`). A product is
checked only when it is entered, against the basis as it is then. Since elements that are in a basis
keep their multidegrees, all products stay of the right multidegree
(`ProductTable.IsHomogeneous`). Main result: `Construction.run_homogeneous`, which also says when a
product is refused and what entering one changes.
-/

namespace Nonassoc

open Multidegree (Name Table)

/-! ## Growth -/

namespace Basis

variable {b : Basis}

theorem Operation.nameOf_apply (o : Operation) {x : BasisId} {n : Name} (h : b.nameOf x = .ok n) :
    (o.apply b).2.nameOf x = .ok n := by
  cases o with
  | push factors name =>
    cases hpush : b.push factors name with
    | ok b' => simpa only [Operation.apply, hpush] using nameOf_of_push hpush h
    | error e => simpa only [Operation.apply, hpush] using h
  | generators t =>
    exact pushGenerators_inv (P := fun b' => b'.nameOf x = .ok n)
      (fun _ _ _ hx hpush => nameOf_of_push hpush hx) _ h

theorem contains_eq_false_iff {x : BasisId} :
    b.contains x = false ↔ ∃ f, b.nameOf x = .error f := by
  rw [← Bool.not_eq_true, contains_iff]
  cases b.nameOf x <;> simp

end Basis

/-! ## Checking a product -/

namespace ProductTable

variable {t : Table} {b : Basis} {p : ProductTable}

/-- The factors and the terms of a product are in the basis, and the terms have the multidegree that is
expected of it: the sum of those of the factors. -/
structure IsProduct (t : Table) (b : Basis) (l r : BasisId) (e : Element) (expected : Option Name) :
    Prop where
  factors : ∃ m n, b.nameOf l = .ok m ∧ b.nameOf r = .ok n ∧ t.add m n = .ok expected
  terms : ∀ x ∈ e.terms, ∃ k, b.nameOf x.1 = .ok k ∧ expected = some k

/-- Every product has the multidegree of its factors together. -/
def IsHomogeneous (t : Table) (b : Basis) (p : ProductTable) : Prop :=
  ∀ l r e, p.product? l r = some e → ∃ expected, IsProduct t b l r e expected

theorem isHomogeneous_empty : empty.IsHomogeneous t b := by
  intro l r e h
  simp [product?, empty] at h

/-- A basis with more elements, where the old ones keep their multidegrees. -/
theorem IsHomogeneous.mono {b' : Basis} (h : p.IsHomogeneous t b)
    (hb : ∀ x n, b.nameOf x = .ok n → b'.nameOf x = .ok n) : p.IsHomogeneous t b' := by
  intro l r e he
  obtain ⟨expected, ⟨m, n, hm, hn, hadd⟩, hterms⟩ := h l r e he
  refine ⟨expected, ⟨m, n, hb l m hm, hb r n hn, hadd⟩, fun x hx => ?_⟩
  obtain ⟨k, hk, hexpected⟩ := hterms x hx
  exact ⟨k, hb x.1 k hk, hexpected⟩

/-- A product whose multidegree is not below the target is zero. -/
theorem IsProduct.eq_zero {l r : BasisId} {e : Element} (h : IsProduct t b l r e none) :
    e = Element.zero := by
  have hnil : e.terms = [] := List.eq_nil_iff_forall_not_mem.2 fun x hx => by
    obtain ⟨k, -, hk⟩ := h.terms x hx
    cases hk
  cases e
  exact congrArg Element.mk hnil

/-- Why a product is refused: its left or right factor is not in the basis, or a term, the first bad
one, is not there or has another multidegree than the product. -/
inductive Refused (t : Table) (b : Basis) (l r : BasisId) (e : Element) : AlgebraError → Prop
  | left : b.contains l = false → Refused t b l r e (.unknownBasis l)
  | right : b.contains l = true → b.contains r = false → Refused t b l r e (.unknownBasis r)
  | term {m n : Name} {expected : Option Name} {good bad : List (BasisId × Scalar)}
      {x : BasisId × Scalar} :
      b.nameOf l = .ok m → b.nameOf r = .ok n → t.add m n = .ok expected →
      e.terms = good ++ x :: bad →
      (∀ y ∈ good, ∃ k, b.nameOf y.1 = .ok k ∧ expected = some k) →
      b.contains x.1 = false → Refused t b l r e (.unknownBasis x.1)
  | wrongName {m n found : Name} {expected : Option Name} {good bad : List (BasisId × Scalar)}
      {x : BasisId × Scalar} :
      b.nameOf l = .ok m → b.nameOf r = .ok n → t.add m n = .ok expected →
      e.terms = good ++ x :: bad →
      (∀ y ∈ good, ∃ k, b.nameOf y.1 = .ok k ∧ expected = some k) →
      b.nameOf x.1 = .ok found → some found ≠ expected →
      Refused t b l r e (.wrongName l r x.1 found expected)

/-- The terms are checked in order up to the first bad one. -/
theorem checkTerms_cases (l r : BasisId) (expected : Option Name)
    (terms : List (BasisId × Scalar)) :
    checkTerms b l r expected terms = .ok () ∧
        (∀ x ∈ terms, ∃ k, b.nameOf x.1 = .ok k ∧ expected = some k) ∨
      ∃ good x bad, terms = good ++ x :: bad ∧
        (∀ y ∈ good, ∃ k, b.nameOf y.1 = .ok k ∧ expected = some k) ∧
        (b.contains x.1 = false ∧ checkTerms b l r expected terms = .error (.unknownBasis x.1) ∨
          ∃ found, b.nameOf x.1 = .ok found ∧ some found ≠ expected ∧
            checkTerms b l r expected terms = .error (.wrongName l r x.1 found expected)) := by
  induction terms with
  | nil => exact .inl ⟨rfl, nofun⟩
  | cons x rest ih =>
    cases hx : b.nameOf x.1 with
    | error f =>
      refine .inr ⟨[], x, rest, rfl, nofun, .inl ⟨Basis.contains_eq_false_iff.2 ⟨f, hx⟩, ?_⟩⟩
      simp only [checkTerms, hx]
    | ok found =>
      by_cases hfound : some found = expected
      · have hcheck : checkTerms b l r expected (x :: rest) = checkTerms b l r expected rest := by
          simp only [checkTerms, hx, hfound, if_true]
        rw [hcheck]
        rcases ih with ⟨hok, hall⟩ | ⟨good, y, bad, rfl, hgood, hbad⟩
        · exact .inl ⟨hok, List.forall_mem_cons.2 ⟨⟨found, hx, hfound.symm⟩, hall⟩⟩
        · exact .inr ⟨x :: good, y, bad, rfl,
            List.forall_mem_cons.2 ⟨⟨found, hx, hfound.symm⟩, hgood⟩, hbad⟩
      · refine .inr ⟨[], x, rest, rfl, nofun, .inr ⟨found, hx, hfound, ?_⟩⟩
        simp only [checkTerms, hx, if_neg hfound]

/-- A product is entered as it is if it has the multidegree of its factors, and refused otherwise. -/
theorem enter_cases (hb : b.Built t) (l r : BasisId) (e : Element) :
    (∃ expected, IsProduct t b l r e expected) ∧
        p.enter t b l r e = .ok ⟨p.products.insert (l, r) e⟩ ∨
      (¬ ∃ expected, IsProduct t b l r e expected) ∧
        ∃ x, p.enter t b l r e = .error x ∧ Refused t b l r e x := by
  cases hl : b.nameOf l with
  | error f =>
    refine .inr ⟨fun h => ?_, .unknownBasis l, by simp only [enter, hl],
      .left (Basis.contains_eq_false_iff.2 ⟨f, hl⟩)⟩
    obtain ⟨_, ⟨m, n, hm, -⟩, -⟩ := h
    cases hl.symm.trans hm
  | ok m =>
    cases hr : b.nameOf r with
    | error f =>
      refine .inr ⟨fun h => ?_, .unknownBasis r, by simp only [enter, hl, hr],
        .right (Basis.contains_iff.2 ⟨m, hl⟩) (Basis.contains_eq_false_iff.2 ⟨f, hr⟩)⟩
      obtain ⟨_, ⟨m, n, -, hn, -⟩, -⟩ := h
      cases hr.symm.trans hn
    | ok n =>
      obtain ⟨expected, hadd⟩ := Table.add_eq_ok (hb.contains_of_nameOf hl) (hb.contains_of_nameOf hr)
      have henter : p.enter t b l r e = (do
          checkTerms b l r expected e.terms
          return ⟨p.products.insert (l, r) e⟩) := by
        simp only [enter, hl, hr, hadd]
        rfl
      rw [henter]
      have hnot : ∀ {good bad : List (BasisId × Scalar)} {x : BasisId × Scalar},
          e.terms = good ++ x :: bad → (∀ k, b.nameOf x.1 = .ok k → expected ≠ some k) →
          ¬ ∃ expected, IsProduct t b l r e expected := by
        rintro good bad x hterms hx ⟨expected', ⟨m', n', hm', hn', hadd'⟩, hall⟩
        cases hl.symm.trans hm'
        cases hr.symm.trans hn'
        cases hadd.symm.trans hadd'
        obtain ⟨k, hk, hexpected⟩ := hall x (by simp [hterms])
        exact hx k hk hexpected
      rcases checkTerms_cases (b := b) l r expected e.terms with
        ⟨hok, hall⟩ | ⟨good, x, bad, hterms, hgood, ⟨hx, herror⟩ | ⟨found, hx, hfound, herror⟩⟩
      · exact .inl ⟨⟨expected, ⟨m, n, hl, hr, hadd⟩, hall⟩, by rw [hok]; rfl⟩
      · refine .inr ⟨hnot hterms fun k hk => ?_, _, by rw [herror]; rfl,
          .term hl hr hadd hterms hgood hx⟩
        obtain ⟨f, hf⟩ := Basis.contains_eq_false_iff.1 hx
        cases hf.symm.trans hk
      · refine .inr ⟨hnot hterms fun k hk => ?_, _, by rw [herror]; rfl,
          .wrongName hl hr hadd hterms hgood hx hfound⟩
        cases hx.symm.trans hk
        exact hfound.symm

end ProductTable

/-! ## Interleavings -/

/-- A basis and a product table, as they are filled. -/
structure Construction where
  basis : Basis
  products : ProductTable

namespace Construction

/-- What can be tried. -/
inductive Step where
  | basis (o : Basis.Operation)
  | product (l r : BasisId) (e : Element)

/-- The failure of a step, if it fails, and what there is after it. -/
def Step.apply (t : Table) : Step → Construction → Option AlgebraError × Construction
  | basis o, s => ((o.apply s.basis).1.map .basis, { s with basis := (o.apply s.basis).2 })
  | product l r e, s =>
    match s.products.enter t s.basis l r e with
    | .ok products => (none, { s with products })
    | .error x => (some x, s)

/-- What there is after some steps from nothing, whether they fail or not. -/
def run (t : Table) (steps : List Step) : Construction :=
  steps.foldl (fun s step => (step.apply t s).2) ⟨.empty t, .empty⟩

/-- The basis was entered over the names of the table, and all products have the right multidegree. -/
structure IsSound (t : Table) (s : Construction) : Prop where
  built : s.basis.Built t
  homogeneous : s.products.IsHomogeneous t s.basis

variable {t : Table} {s : Construction}

/-- A step keeps this. -/
theorem IsSound.apply (h : s.IsSound t) (step : Step) : (step.apply t s).2.IsSound t := by
  cases step with
  | basis o => exact ⟨h.built.apply o, h.homogeneous.mono fun _ _ => o.nameOf_apply⟩
  | product l r e =>
    rcases ProductTable.enter_cases (p := s.products) h.built l r e with
      ⟨hproduct, henter⟩ | ⟨-, x, henter, -⟩
    · simp only [Step.apply, henter]
      refine ⟨h.built, fun l' r' e' he' => ?_⟩
      rw [ProductTable.product?_insert] at he'
      split at he'
      · rename_i heq
        obtain ⟨rfl, rfl⟩ := heq
        cases he'
        exact hproduct
      · exact h.homogeneous l' r' e' he'
    · simpa only [Step.apply, henter] using h

/-- So all steps do. -/
theorem isSound_run (t : Table) (steps : List Step) : (run t steps).IsSound t := by
  unfold run
  have hfold : ∀ s : Construction, s.IsSound t →
      (steps.foldl (fun s step => (step.apply t s).2) s).IsSound t := by
    induction steps with
    | nil => exact fun s hs => hs
    | cons step rest ih => exact fun s hs => ih _ (hs.apply step)
  exact hfold _ ⟨.empty, ProductTable.isHomogeneous_empty⟩

/-- Whatever has been tried, in whatever order: the factors and the terms of all products are in the
basis, and the terms have the multidegree of the product, which is zero if that is not below the
target. Entering basis elements does not touch the products. A product is entered if and only if it is
such a product for the basis as it is; then it is found under its factors, and all else is as it was.
If it is refused then nothing changes, and the failure tells why. -/
theorem run_homogeneous (t : Table) (steps : List Step) :
    (∀ l r e, (run t steps).products.product? l r = some e → ∃ m n expected,
      (run t steps).basis.nameOf l = .ok m ∧ (run t steps).basis.nameOf r = .ok n ∧
      t.add m n = .ok expected ∧
      (∀ x ∈ e.terms, ∃ k, (run t steps).basis.nameOf x.1 = .ok k ∧ expected = some k) ∧
      (expected = none → e = Element.zero)) ∧
    (∀ o, ((Step.basis o).apply t (run t steps)).2.products = (run t steps).products) ∧
    ∀ l r e,
      (((Step.product l r e).apply t (run t steps)).1 = none ↔
        ∃ expected, ProductTable.IsProduct t (run t steps).basis l r e expected) ∧
      (∀ s, (Step.product l r e).apply t (run t steps) = (none, s) →
        s.basis = (run t steps).basis ∧ s.products.product? l r = some e ∧
        ∀ l' r', (l', r') ≠ (l, r) →
          s.products.product? l' r' = (run t steps).products.product? l' r') ∧
      ∀ x s, (Step.product l r e).apply t (run t steps) = (some x, s) →
        s = run t steps ∧ ProductTable.Refused t (run t steps).basis l r e x := by
  have hsound := isSound_run t steps
  refine ⟨fun l r e h => ?_, fun _ => rfl, fun l r e => ?_⟩
  · obtain ⟨expected, hproduct⟩ := hsound.homogeneous l r e h
    obtain ⟨m, n, hm, hn, hadd⟩ := hproduct.factors
    exact ⟨m, n, expected, hm, hn, hadd, hproduct.terms, fun hnone => (hnone ▸ hproduct).eq_zero⟩
  · rcases ProductTable.enter_cases (p := (run t steps).products) hsound.built l r e with
      ⟨hproduct, henter⟩ | ⟨hproduct, x, henter, hrefused⟩
    · simp only [Step.apply, henter]
      refine ⟨⟨fun _ => hproduct, fun _ => trivial⟩, fun s hs => ?_, fun x s hs => ?_⟩
      · cases hs
        simp only [ProductTable.product?_insert]
        refine ⟨trivial, by simp, fun l' r' hne => if_neg fun heq => hne ?_⟩
        rw [heq.1, heq.2]
      · cases hs
    · simp only [Step.apply, henter]
      refine ⟨⟨fun h => ?_, fun h => absurd h hproduct⟩, fun s hs => ?_, fun y s hs => ?_⟩
      · cases h
      · cases hs
      · cases hs
        exact ⟨rfl, hrefused⟩

/-- One generator and its square, whose product is entered: it can be replaced by zero, but not by
the generator itself. -/
theorem run_homogeneous_square :
    ∃ (t : Table) (s s' : Construction), Table.ofTarget ⟨[2]⟩ = .ok t ∧
      s = run t [.basis (.push none 1), .basis (.push (some (0, 0)) 2),
        .product 0 0 (Element.basis 1)] ∧
      s.products.product? 0 0 = some (Element.basis 1) ∧
      (∃ m n expected, s.basis.nameOf 0 = .ok m ∧ s.basis.nameOf 0 = .ok n ∧
        t.add m n = .ok expected ∧
        (∀ x ∈ (Element.basis 1).terms, ∃ k, s.basis.nameOf x.1 = .ok k ∧ expected = some k) ∧
        (expected = none → Element.basis 1 = Element.zero)) ∧
      (Step.product 0 0 .zero).apply t s = (none, s') ∧
      (s'.basis = s.basis ∧ s'.products.product? 0 0 = some .zero ∧
        ∀ l r, (l, r) ≠ (0, 0) → s'.products.product? l r = s.products.product? l r) ∧
      (Step.product 0 0 (Element.basis 0)).apply t s = (some (.wrongName 0 0 0 1 (some 2)), s) ∧
      ProductTable.Refused t s.basis 0 0 (Element.basis 0) (.wrongName 0 0 0 1 (some 2)) := by
  obtain ⟨t, b, c, ht, hone, htwo, hb, hc, hx, hsquare⟩ : ∃ t b c, Table.ofTarget ⟨[2]⟩ = .ok t ∧
      t.entry 1 = .ok ⟨[1]⟩ ∧ t.entry 2 = .ok ⟨[2]⟩ ∧ (Basis.empty t).push none 1 = .ok b ∧
      b.push (some (0, 0)) 2 = .ok c ∧ c.nameOf 0 = .ok 1 ∧ c.nameOf 1 = .ok 2 :=
    ⟨_, _, _, rfl, rfl, rfl, rfl, rfl, rfl, rfl⟩
  have hadd : t.add 1 1 = .ok (some 2) := Table.add_of_entry hone hone htwo rfl
  let s : Construction := ⟨c, ⟨ProductTable.empty.products.insert (0, 0) (Element.basis 1)⟩⟩
  have hs : run t [.basis (.push none 1), .basis (.push (some (0, 0)) 2),
      .product 0 0 (Element.basis 1)] = s := by
    simp only [run, List.foldl, Step.apply, Basis.Operation.apply, hb, hc,
      ProductTable.exists_enter hx hx hsquare hadd]
    rfl
  let s' : Construction := ⟨c, ⟨s.products.products.insert (0, 0) .zero⟩⟩
  have hzero : (Step.product 0 0 .zero).apply t s = (none, s') := by
    simp only [Step.apply, ProductTable.enter, s, hx, hadd]
    rfl
  have hrefused : (Step.product 0 0 (Element.basis 0)).apply t s =
      (some (.wrongName 0 0 0 1 (some 2)), s) := by
    simp only [Step.apply, ProductTable.enter, s, hx, hadd, Element.basis,
      ProductTable.checkTerms]
    rfl
  have hproduct : s.products.product? 0 0 = some (Element.basis 1) := by
    rw [ProductTable.product?_insert]
    rfl
  have hall := run_homogeneous t [.basis (.push none 1), .basis (.push (some (0, 0)) 2),
    .product 0 0 (Element.basis 1)]
  rw [hs] at hall
  exact ⟨t, s, s', ht, hs.symm, hproduct, hall.1 0 0 _ hproduct, hzero,
    (hall.2.2 0 0 .zero).2.1 s' hzero, hrefused,
    ((hall.2.2 0 0 (Element.basis 0)).2.2 _ s hrefused).2⟩

end Construction

end Nonassoc
