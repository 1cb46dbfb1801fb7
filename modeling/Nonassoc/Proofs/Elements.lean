import Mathlib.Data.Finsupp.SMul
import Mathlib.GroupTheory.GroupAction.Ring
import Mathlib.LinearAlgebra.Finsupp.Defs
import Mathlib.Tactic.Abel
import Nonassoc.Element
import Nonassoc.Proofs.Residues
import Nonassoc.Proofs.SortedLookup

/-!
# Elements as vectors

`Element.vector f e` is the vector that an element stands for, a finitely supported function from
basis elements to the field. `Element.IsOver f e` says that the element is written as the program
writes it: basis elements ascending, coefficients residues that are not zero. Every operation keeps
this form, and changes the vector as its name says (`vector_addAt`).
-/

namespace Nonassoc

/-- Linear combinations of basis elements. -/
abbrev PrimeField.Vector (f : PrimeField) := BasisId →₀ ZMod f.prime

namespace Element

/-- The linear combination with the given terms. -/
noncomputable def termsVector (f : PrimeField) (l : List (BasisId × Scalar)) : f.Vector :=
  (l.map fun x => Finsupp.single x.1 (x.2 : ZMod f.prime)).sum

/-- The vector of an element. -/
noncomputable def vector (f : PrimeField) (e : Element) : f.Vector := termsVector f e.terms

/-- Basis elements ascending, coefficients from the field and not zero. -/
structure IsOver (f : PrimeField) (e : Element) : Prop where
  sorted : e.terms.Pairwise fun x y => x.1 < y.1
  units : ∀ x ∈ e.terms, f.IsUnit x.2

variable {f : PrimeField}

theorem termsVector_cons (x : BasisId × Scalar) (l : List (BasisId × Scalar)) :
    termsVector f (x :: l) = Finsupp.single x.1 (x.2 : ZMod f.prime) + termsVector f l := by
  simp [termsVector]

/-- A linear map takes its values from those at basis elements. -/
theorem map_vector {W : Type} [AddCommGroup W] [Module (ZMod f.prime) W]
    (L : f.Vector →ₗ[ZMod f.prime] W) (e : Element) :
    L (e.vector f) =
      (e.terms.map fun x => (x.2 : ZMod f.prime) • L (Finsupp.single x.1 1)).sum := by
  rw [vector, termsVector, map_list_sum, List.map_map]
  refine congrArg List.sum (List.map_congr_left fun x _ => ?_)
  rw [Function.comp_apply, ← map_smul, Finsupp.smul_single_one]

/-! ## Changing one term -/

theorem mem_of_mem_erase {b : BasisId} {x : BasisId × Scalar} {l : List (BasisId × Scalar)}
    (h : x ∈ erase b l) : x ∈ l := by
  induction l with
  | nil => exact h
  | cons c l ih =>
    simp only [erase] at h
    split at h
    · exact h
    · split at h
      · exact List.mem_cons_of_mem _ h
      · exact (List.mem_cons.1 h).elim (fun h => h ▸ List.mem_cons_self)
          fun h => List.mem_cons_of_mem _ (ih h)

theorem mem_of_mem_insert {b : BasisId} {y : Scalar} {x : BasisId × Scalar}
    {l : List (BasisId × Scalar)} (h : x ∈ insert b y l) : x = (b, y) ∨ x ∈ l := by
  induction l with
  | nil => exact .inl (List.mem_singleton.1 h)
  | cons c l ih =>
    simp only [insert] at h
    split at h
    · exact List.mem_cons.1 h
    · split at h
      · exact (List.mem_cons.1 h).imp_right (List.mem_cons_of_mem _)
      · rcases List.mem_cons.1 h with h | h
        · exact .inr (h ▸ List.mem_cons_self)
        · exact (ih h).imp_right (List.mem_cons_of_mem _)

/-- Removing a term takes it from the vector, and keeps the order. -/
theorem erase_spec (b : BasisId) {l : List (BasisId × Scalar)}
    (h : l.Pairwise fun x y => x.1 < y.1) :
    (erase b l).Pairwise (fun x y => x.1 < y.1) ∧
      termsVector f (erase b l) + Finsupp.single b (((l.lookup b).getD 0 : Scalar) : ZMod f.prime) =
        termsVector f l := by
  induction l with
  | nil => simp [erase]
  | cons c l ih =>
    obtain ⟨c, y⟩ := c
    obtain ⟨hc, hl⟩ := List.pairwise_cons.1 h
    simp only [erase]
    split
    · rename_i hlt
      have hnone : List.lookup b ((c, y) :: l) = none :=
        lookup_eq_none_of_lt (List.forall_mem_cons.2 ⟨hlt, fun x hx => hlt.trans (hc x hx)⟩)
      rw [hnone]
      exact ⟨h, by simp⟩
    · split
      · rename_i heq
        subst heq
        rw [List.lookup_cons_self, termsVector_cons, add_comm]
        exact ⟨hl, rfl⟩
      · rename_i hne
        have hb : (b == c) = false := by simpa using hne
        simp only [List.lookup_cons, hb, termsVector_cons, add_assoc, (ih hl).2]
        exact ⟨List.pairwise_cons.2 ⟨fun x hx => hc x (mem_of_mem_erase hx), (ih hl).1⟩, trivial⟩

/-- Giving a basis element a coefficient takes its term from the vector and adds the new one, and
keeps the order. -/
theorem insert_spec (b : BasisId) (z : Scalar) {l : List (BasisId × Scalar)}
    (h : l.Pairwise fun x y => x.1 < y.1) :
    (insert b z l).Pairwise (fun x y => x.1 < y.1) ∧
      termsVector f (insert b z l) +
          Finsupp.single b (((l.lookup b).getD 0 : Scalar) : ZMod f.prime) =
        termsVector f l + Finsupp.single b (z : ZMod f.prime) := by
  induction l with
  | nil => simp [insert, termsVector]
  | cons c l ih =>
    obtain ⟨c, y⟩ := c
    obtain ⟨hc, hl⟩ := List.pairwise_cons.1 h
    simp only [insert]
    split
    · rename_i hlt
      have hall : ∀ x ∈ (c, y) :: l, b < x.1 :=
        List.forall_mem_cons.2 ⟨hlt, fun x hx => hlt.trans (hc x hx)⟩
      rw [lookup_eq_none_of_lt hall]
      refine ⟨List.pairwise_cons.2 ⟨hall, h⟩, ?_⟩
      simp only [termsVector_cons, Option.getD_none, Nat.cast_zero, Finsupp.single_zero, add_zero]
      abel
    · split
      · rename_i heq
        subst heq
        refine ⟨List.pairwise_cons.2 ⟨hc, hl⟩, ?_⟩
        simp only [List.lookup_cons_self, termsVector_cons, Option.getD_some]
        abel
      · rename_i hlt hne
        have hb : (b == c) = false := by simpa using hne
        have hcb : c < b := lt_of_le_of_ne (Nat.not_lt.1 hlt) (Ne.symm hne)
        simp only [List.lookup_cons, hb, termsVector_cons, add_assoc, (ih hl).2]
        refine ⟨List.pairwise_cons.2 ⟨fun x hx => ?_, (ih hl).1⟩, trivial⟩
        rcases mem_of_mem_insert hx with rfl | hx
        · exact hcb
        · exact hc x hx

/-! ## Elements over a field -/

namespace IsOver

theorem zero : Element.zero.IsOver f := ⟨List.Pairwise.nil, fun _ h => nomatch h⟩

theorem basis (b : BasisId) : (Element.basis b).IsOver f :=
  ⟨List.pairwise_singleton _ _, fun _ hx => List.mem_singleton.1 hx ▸ PrimeField.isUnit_one⟩

theorem set {e : Element} (h : e.IsOver f) (b : BasisId) {x : Scalar} (hx : x < f.prime) :
    (e.set b x).IsOver f := by
  rw [Element.set]
  split
  · exact ⟨(erase_spec (f := f) b h.sorted).1, fun y hy => h.units y (mem_of_mem_erase hy)⟩
  · rename_i hne
    refine ⟨(insert_spec (f := f) b x h.sorted).1, fun y hy => ?_⟩
    rcases mem_of_mem_insert hy with rfl | hy
    · exact ⟨hne, hx⟩
    · exact h.units y hy

theorem addAt {e : Element} (h : e.IsOver f) (b : BasisId) (x : Scalar) :
    (e.addAt f b x).IsOver f :=
  h.set b (f.add_lt _ _)

theorem add {e : Element} (h : e.IsOver f) (d : Element) : (e.add f d).IsOver f :=
  List.foldlRecOn d.terms _ h fun _ h x _ => h.addAt x.1 x.2

theorem scale (x : Scalar) (e : Element) : (e.scale f x).IsOver f :=
  List.foldlRecOn e.terms _ zero fun _ h y _ => h.set y.1 (Nat.mod_lt _ (NeZero.pos f.prime))

end IsOver

theorem vector_zero : zero.vector f = 0 := rfl

theorem vector_basis (b : BasisId) : (basis b).vector f = Finsupp.single b 1 := by
  simp [vector, termsVector, basis]

/-- Changing a coefficient takes its term from the vector and adds the new one. -/
theorem vector_set {e : Element} (h : e.IsOver f) (b : BasisId) (x : Scalar) :
    (e.set b x).vector f + Finsupp.single b ((e.get b : Scalar) : ZMod f.prime) =
      e.vector f + Finsupp.single b (x : ZMod f.prime) := by
  rw [set]
  split
  · rename_i hzero
    rw [hzero, Nat.cast_zero, Finsupp.single_zero, add_zero]
    exact (erase_spec (f := f) b h.sorted).2
  · exact (insert_spec (f := f) b x h.sorted).2

theorem vector_addAt {e : Element} (h : e.IsOver f) (b : BasisId) (x : Scalar) :
    (e.addAt f b x).vector f = e.vector f + Finsupp.single b (x : ZMod f.prime) := by
  have hset := vector_set h b (f.add (e.get b) x)
  rw [PrimeField.cast_add, add_comm (_ : ZMod f.prime), Finsupp.single_add, ← add_assoc] at hset
  exact add_right_cancel hset

/-- Adding a multiple of some terms one after the other. -/
theorem foldl_addAt_spec {e : Element} (h : e.IsOver f) (x : Scalar)
    (terms : List (BasisId × Scalar)) :
    (terms.foldl (fun e y => e.addAt f y.1 (f.mul x y.2)) e).IsOver f ∧
      (terms.foldl (fun e y => e.addAt f y.1 (f.mul x y.2)) e).vector f =
        e.vector f + (x : ZMod f.prime) • termsVector f terms := by
  induction terms generalizing e with
  | nil => exact ⟨h, by simp [termsVector]⟩
  | cons y terms ih =>
    obtain ⟨hover, hvector⟩ := ih (h.addAt y.1 (f.mul x y.2))
    refine ⟨hover, hvector.trans ?_⟩
    rw [vector_addAt h, PrimeField.cast_mul, termsVector_cons, smul_add, Finsupp.smul_single,
      smul_eq_mul, add_assoc]

/-- The basis elements of a changed element. -/
theorem mem_of_mem_addAt {e : Element} {b : BasisId} {x : Scalar} {y : BasisId × Scalar}
    (h : y ∈ (e.addAt f b x).terms) : y.1 = b ∨ y ∈ e.terms := by
  rw [addAt, set] at h
  split at h
  · exact .inr (mem_of_mem_erase h)
  · exact (mem_of_mem_insert h).imp_left (congrArg Prod.fst)

end Element

end Nonassoc
