import Nonassoc.PartialAlgebra.Free
import Nonassoc.Proofs.Elements
import Nonassoc.Proofs.Substitutions

/-!
# How a partially known algebra comes about

`PartialAlgebra.Built a`: the elements of `a` and its products were entered one after the other, in
any order, the products as elements over the field. Then every known product is an element over the
field all of whose terms have the multidegree of the product (`PartialAlgebra.Built.typed`). The
truncated free algebra is one of them (`PartialAlgebra.built_of_free`).
-/

namespace Nonassoc

open Multidegree (Name Table)

namespace Basis

theorem factors_eq_ok_iff {b : Basis} {x : BasisId} {factors : Option (BasisId × BasisId)} :
    b.factors x = .ok factors ↔ ∃ e, b.entries[x]? = some e ∧ e.factors = factors := by
  rw [Basis.factors, bind_eq_ok, entry]
  cases b.entries[x]? with
  | none => simp
  | some e => simp [pure, Except.pure]

section
variable {b b' : Basis} {factors : Option (BasisId × BasisId)} {name : Name}
  (h : b.push factors name = .ok b')
include h

theorem entries_push : b'.entries = b.entries.push ⟨factors, name⟩ := by
  obtain ⟨first, past, -, -, rfl⟩ := push_eq_ok h
  rfl

theorem size_push : b'.size = b.size + 1 := by
  rw [size, entries_push h]
  exact Array.size_push _

theorem getElem?_entries_push {x : BasisId} {e : BasisEntry} :
    b'.entries[x]? = some e ↔ b.entries[x]? = some e ∨ x = b.size ∧ e = ⟨factors, name⟩ := by
  rw [entries_push h, Array.getElem?_push]
  by_cases hx : x = b.size
  · subst hx
    simp [Basis.size, eq_comm]
  · have hx' : ¬ x = b.entries.size := hx
    simp [hx, hx']

/-- What is in a basis keeps its multidegree, and the new element has the given one. -/
theorem nameOf_push {x : BasisId} {n : Name} :
    b'.nameOf x = .ok n ↔ b.nameOf x = .ok n ∨ x = b.size ∧ n = name := by
  simp only [nameOf_eq_ok_iff, getElem?_entries_push h]
  grind

/-- What is in a basis keeps its factors, and the new element has the given ones. -/
theorem factors_push {x : BasisId} {other : Option (BasisId × BasisId)} :
    b'.factors x = .ok other ↔ b.factors x = .ok other ∨ x = b.size ∧ other = factors := by
  simp only [factors_eq_ok_iff, getElem?_entries_push h]
  grind

theorem nameOf_of_push {x : BasisId} {n : Name} (hx : b.nameOf x = .ok n) : b'.nameOf x = .ok n :=
  (nameOf_push h).2 (.inl hx)

/-- The elements of other multidegrees are the same. -/
theorem ofName_push {n : Name} (hn : n ≠ name) : b'.ofName n = b.ofName n := by
  obtain ⟨first, past, -, -, rfl⟩ := push_eq_ok h
  simp only [ofName, block, Array.getElem?_setIfInBounds_ne hn.symm]

end

/-- An element can be entered if its multidegree is in the table, its factors are in the basis, and
the last element has its multidegree unless it is the first one of it. -/
theorem Built.exists_push {t : Table} {b : Basis} (hb : b.Built t)
    (factors : Option (BasisId × BasisId)) {name : Name} (hname : t.contains name = true)
    (hfactors : b.strangeFactor? factors = none)
    (hlast : ∀ x, b.nameOf x = .ok name → b.nameOf (b.size - 1) = .ok name) :
    ∃ b', b.push factors name = .ok b' := by
  have hlt : name < b.blocks.size := by
    rw [hb.blocked.size]
    exact of_decide_eq_true hname
  obtain ⟨⟨first, past⟩, hblock⟩ : ∃ x, b.blocks[name]? = some x :=
    ⟨_, Array.getElem?_eq_getElem hlt⟩
  have hmem : ∀ x, first ≤ x ∧ x < past ↔ b.nameOf x = .ok name := fun x =>
    (hb.blocked.block name first past hblock x).trans nameOf_eq_ok_iff.symm
  have hnext : first < past → past = b.size := by
    intro hfirst
    have hend := (hmem _).2 (hlast first ((hmem first).1 ⟨le_rfl, hfirst⟩))
    have hpast := (hmem (past - 1)).1 ⟨by omega, by omega⟩
    have hsize : past - 1 < b.size := of_decide_eq_true (contains_iff.2 ⟨_, hpast⟩)
    omega
  simp only [Basis.push, hblock, hfactors]
  by_cases hfirst : first < past
  · simp [hnext hfirst]
  · simp [hfirst]

end Basis

/-! ## Products of one multidegree -/

namespace ProductTable

/-- Every product is over the field, and its terms have the multidegree of the product. -/
def IsTyped (f : PrimeField) (t : Table) (b : Basis) (p : ProductTable) : Prop :=
  ∀ l r e, p.product? l r = some e → e.IsOver f ∧ ∃ m n, b.nameOf l = .ok m ∧ b.nameOf r = .ok n ∧
    ∀ x ∈ e.terms, ∃ k, b.nameOf x.1 = .ok k ∧ t.add m n = .ok (some k)

variable {f : PrimeField} {t : Table} {b : Basis} {p : ProductTable}

theorem isTyped_empty : IsTyped f t b empty := by
  intro l r e h
  simp [product?, empty] at h

theorem IsTyped.push (hp : p.IsTyped f t b) {b' : Basis} {factors : Option (BasisId × BasisId)}
    {name : Name} (h : b.push factors name = .ok b') : p.IsTyped f t b' := by
  intro l r e he
  obtain ⟨hover, m, n, hm, hn, hterms⟩ := hp l r e he
  refine ⟨hover, m, n, Basis.nameOf_of_push h hm, Basis.nameOf_of_push h hn, fun x hx => ?_⟩
  obtain ⟨k, hk, hadd⟩ := hterms x hx
  exact ⟨k, Basis.nameOf_of_push h hk, hadd⟩

theorem checkTerms_eq_ok {l r : BasisId} {expected : Option Name}
    {terms : List (BasisId × Scalar)} (h : checkTerms b l r expected terms = .ok ()) :
    ∀ x ∈ terms, ∃ k, b.nameOf x.1 = .ok k ∧ expected = some k := by
  induction terms with
  | nil => exact nofun
  | cons x terms ih =>
    obtain ⟨x, y⟩ := x
    simp only [checkTerms] at h
    split at h
    · cases h
    · rename_i found hfound
      split at h
      · rename_i hexpected
        exact List.forall_mem_cons.2 ⟨⟨found, hfound, hexpected.symm⟩, ih h⟩
      · cases h

theorem enter_eq_ok {l r : BasisId} {e : Element} {p' : ProductTable}
    (h : p.enter t b l r e = .ok p') :
    p' = ⟨p.products.insert (l, r) e⟩ ∧ ∃ m n, b.nameOf l = .ok m ∧ b.nameOf r = .ok n ∧
      ∀ x ∈ e.terms, ∃ k, b.nameOf x.1 = .ok k ∧ t.add m n = .ok (some k) := by
  unfold enter at h
  split at h
  · cases h
  · cases h
  · rename_i m n hm hn
    obtain ⟨expected, hexpected, h⟩ := bind_eq_ok.1 h
    obtain ⟨_, hcheck, h⟩ := bind_eq_ok.1 h
    cases h
    refine ⟨rfl, m, n, hm, hn, fun x hx => ?_⟩
    obtain ⟨k, hk, rfl⟩ := checkTerms_eq_ok hcheck x hx
    exact ⟨k, hk, mapError_eq_ok.1 hexpected⟩

/-- The product of two elements can be entered as a single element of the right multidegree. -/
theorem exists_enter {l r x : BasisId} {m n k : Name} (hl : b.nameOf l = .ok m)
    (hr : b.nameOf r = .ok n) (hx : b.nameOf x = .ok k) (hadd : t.add m n = .ok (some k)) :
    p.enter t b l r (Element.basis x) = .ok ⟨p.products.insert (l, r) (Element.basis x)⟩ := by
  simp [enter, hl, hr, hadd, Element.basis, checkTerms, hx, Except.mapError, bind, Except.bind,
    pure, Except.pure]

theorem product?_insert (l r : BasisId) (e : Element) (l' r' : BasisId) :
    (⟨p.products.insert (l, r) e⟩ : ProductTable).product? l' r' =
      if l = l' ∧ r = r' then some e else p.product? l' r' := by
  rw [product?, Std.HashMap.getElem?_insert]
  simp only [beq_iff_eq, Prod.mk.injEq]
  rfl

theorem IsTyped.enter (hp : p.IsTyped f t b) {l r : BasisId} {e : Element} (he : e.IsOver f)
    {p' : ProductTable} (h : p.enter t b l r e = .ok p') : p'.IsTyped f t b := by
  obtain ⟨rfl, m, n, hm, hn, hterms⟩ := enter_eq_ok h
  intro l' r' e' he'
  rw [product?_insert] at he'
  split at he'
  · rename_i heq
    obtain ⟨rfl, rfl⟩ := heq
    cases he'
    exact ⟨he, m, n, hm, hn, hterms⟩
  · exact hp l' r' e' he'

end ProductTable

/-! ## Histories -/

namespace PartialAlgebra

/-- The algebras that can be entered, element by element and product by product. -/
inductive Built : PartialAlgebra → Prop
  | empty (f : PrimeField) (t : Table) : Built ⟨f, t, .empty t, .empty⟩
  | push {a : PartialAlgebra} {factors : Option (BasisId × BasisId)} {name : Name} {b : Basis} :
      Built a → a.basis.push factors name = .ok b → Built { a with basis := b }
  | enter {a : PartialAlgebra} {l r : BasisId} {e : Element} {p : ProductTable} :
      Built a → e.IsOver a.field → a.products.enter a.table a.basis l r e = .ok p →
        Built { a with products := p }

variable {a : PartialAlgebra}

theorem Built.basis (h : a.Built) : a.basis.Built a.table := by
  induction h with
  | empty f t => exact .empty
  | push _ hpush ih => exact ih.push hpush
  | enter _ _ _ ih => exact ih

theorem Built.typed (h : a.Built) : a.products.IsTyped a.field a.table a.basis := by
  induction h with
  | empty f t => exact ProductTable.isTyped_empty
  | push _ hpush ih => exact ih.push hpush
  | enter _ he henter ih => exact ih.enter he henter

/-- The generators may be entered at any time. -/
theorem Built.pushAllGenerators (h : a.Built) :
    Built { a with basis := (a.basis.pushAllGenerators a.table).2 } :=
  Basis.pushGenerators_inv (P := fun b => Built { a with basis := b })
    (fun _ _ _ hb hpush => hb.push hpush) _ h

/-- A basis and products that can be entered, as they are handed from step to step. -/
def IsEntered (f : PrimeField) (t : Table) (s : Basis × ProductTable) : Prop :=
  Built ⟨f, t, s.1, s.2⟩

section
variable {f : PrimeField} {t : Table} {s s' : Basis × ProductTable}

theorem IsEntered.pushProduct {name : Name} {l r : BasisId} (h : IsEntered f t s)
    (hs : pushProduct t name l r s.1 s.2 = .ok s') : IsEntered f t s' := by
  obtain ⟨b, hb, hs⟩ := bind_eq_ok.1 hs
  obtain ⟨p, hp, hs⟩ := bind_eq_ok.1 hs
  cases hs
  exact (Built.push h (mapError_eq_ok.1 hb)).enter (.basis _) hp

theorem IsEntered.pushProducts {name left right : Name} (h : IsEntered f t s)
    (hs : pushProducts t name left right s.1 s.2 = .ok s') : IsEntered f t s' := by
  refine foldlM_inv (fun l _ s s' hP hs' => ?_) h hs
  exact foldlM_inv (fun r _ s s' hP hs' => hP.pushProduct hs') hP hs'

theorem IsEntered.pushName {d : Nat} {name : Name} (h : IsEntered f t s)
    (hs : pushName t d s.1 s.2 name = .ok s') : IsEntered f t s' := by
  refine foldlM_inv (fun left _ s s' hP hs' => ?_) h hs
  obtain ⟨right, -, hs'⟩ := bind_eq_ok.1 hs'
  cases right with
  | none =>
    cases hs'
    exact hP
  | some right => exact hP.pushProducts hs'

/-- The truncated free algebra is entered in this way. -/
theorem built_of_free {target : Multidegree} {maxDegree : Nat}
    (h : free f target maxDegree = .ok a) : a.Built := by
  unfold free at h
  obtain ⟨t, -, h⟩ := bind_eq_ok.1 h
  simp only at h
  split at h
  · cases h
  · obtain ⟨-, -, h⟩ := bind_eq_ok.1 h
    obtain ⟨s, hs, h⟩ := bind_eq_ok.1 h
    cases h
    have hgenerators : IsEntered f t (((Basis.empty t).pushAllGenerators t).2, .empty) :=
      (Built.empty f t).pushAllGenerators
    refine foldlM_inv (P := IsEntered f t) (fun d _ s s' hP hs' => ?_) hgenerators hs
    exact foldlM_inv (fun name _ s s' hP hs' => hP.pushName hs') hP hs'

end

end PartialAlgebra

end Nonassoc
