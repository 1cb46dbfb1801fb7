import Nonassoc.Proofs.Blocks

/-!
# The truncated free algebra

Setting up the truncated free algebra succeeds for every target with a generator, and gives every
multidegree up to the degree of truncation an element and every product up to there
(`PartialAlgebra.exists_free`). The generators come first (`Basis.entries_pushAllGenerators`). While
the products of one multidegree are entered, the elements of all others stay as they are and those of
this one are the last ones (`Filling`), so that no step fails; what is known once some multidegrees
are done is `FilledUpTo`. No product is entered twice, so that each is the element with just these
factors (`Recorded`).
-/

namespace Nonassoc

open Multidegree (Name Table)

/-! ## Generators -/

namespace Multidegree

theorem mem_support {m : Multidegree} {g : Nat} : g ∈ m.support ↔ 0 < m.count g := by
  simp only [support, List.mem_filterMap, count, List.getD_eq_getElem?_getD, Prod.exists,
    List.mk_mem_zipIdx_iff_getElem?, Option.ite_none_left_eq_some, Option.some_inj]
  constructor
  · rintro ⟨x, i, hx, hne, rfl⟩
    rw [hx]
    exact Nat.pos_of_ne_zero fun h => hne (UInt8.toNat_inj.1 h)
  · intro h
    cases hx : m.components[g]? with
    | none =>
      rw [hx] at h
      exact absurd h (Nat.lt_irrefl 0)
    | some x =>
      rw [hx] at h
      refine ⟨x, g, hx, ?_, rfl⟩
      rintro rfl
      exact absurd h (Nat.lt_irrefl 0)

theorem nodup_support (m : Multidegree) : m.support.Nodup := by
  have hlt : m.components.zipIdx.Pairwise fun a b => a.2 < b.2 := by
    rw [← List.pairwise_map (f := Prod.snd) (R := (· < ·)), List.zipIdx_map_snd]
    exact List.pairwise_lt_range'
  refine List.Pairwise.filterMap _ (fun a b hab i hi j hj => ?_) hlt
  simp only [Option.ite_none_left_eq_some, Option.some_inj] at hi hj
  rw [← hi.2, ← hj.2]
  exact hab.ne

theorem count_unit {generators g : Nat} {m : Multidegree} (h : unit generators g = .ok m) :
    m.generators = generators ∧ m.count = Pi.single g 1 := by
  unfold unit at h
  split at h
  · cases h
  split at h
  · rename_i hg
    cases h
    refine ⟨by simp [Multidegree.generators], funext fun i => ?_⟩
    simp only [count, List.getD_eq_getElem?_getD, List.getElem?_set, List.length_replicate, hg,
      List.getElem?_replicate, if_true]
    by_cases hi : g = i
    · subst hi
      simp
    · rw [if_neg hi, Pi.single_eq_of_ne (Ne.symm hi)]
      split <;> rfl
  · cases h

/-- A generator is told by its multidegree. -/
theorem eq_of_single {g g' : Nat} (h : (Pi.single g 1 : Nat → Nat) = Pi.single g' 1) : g = g' := by
  by_contra hne
  have hsingle := congrFun h g
  rw [Pi.single_eq_same, Pi.single_eq_of_ne hne] at hsingle
  exact Nat.one_ne_zero hsingle

/-- There is a name for each generator of the target. -/
theorem Table.exists_name_unit {t : Table} (hsize : t.target.generators ≤ byteCapacity) {g : Nat}
    (hg : g ∈ t.target.support) :
    ∃ n, t.generatorName? g = some n ∧ t.contains n = true ∧ t.count n = Pi.single g 1 := by
  obtain ⟨n, hn, hcount⟩ := exists_generator (mem_support.1 hg)
  obtain ⟨m, hm⟩ := contains_iff.1 hn
  have hlt : g < t.target.generators := by
    by_contra hle
    have hpos := mem_support.1 hg
    rw [Multidegree.count_of_generators_le (Nat.not_lt.1 hle)] at hpos
    exact Nat.lt_irrefl 0 hpos
  obtain ⟨u, hu⟩ : ∃ u, unit t.target.generators g = .ok u :=
    ⟨_, by rw [unit, if_neg (Nat.not_lt.2 hsize), if_pos hlt]⟩
  obtain ⟨hgenerators, hsingle⟩ := count_unit hu
  have heq : u = m := Multidegree.eq_of_count (hgenerators.trans (generators_of_entry hm).symm)
    (by rw [hsingle, ← hcount, count_of_entry hm])
  refine ⟨n, ?_, hn, hcount⟩
  rw [generatorName?, hu, heq]
  exact name?_eq_some_iff.2 hm

/-- The generators have one name each, and these are the names of degree one. -/
theorem Table.nodup_generatorNames {t : Table} (hsize : t.target.generators ≤ byteCapacity) :
    t.generatorNames.Nodup ∧
      ∀ n, n ∈ t.generatorNames ↔ t.contains n = true ∧ t.degreeOf n = 1 := by
  have hunit := fun g (hg : g ∈ t.target.support) => Table.exists_name_unit hsize hg
  choose! name hname hcontains hcount using hunit
  rw [generatorNames, List.filterMap_eq_map_iff_forall_eq_some.2 hname]
  refine ⟨t.target.nodup_support.map_on fun g hg g' hg' heq => ?_, fun n => ?_⟩
  · exact eq_of_single ((hcount g hg).symm.trans (heq ▸ hcount g' hg'))
  · rw [List.mem_map]
    constructor
    · rintro ⟨g, hg, rfl⟩
      exact ⟨hcontains g hg, Table.degreeOf_generator (Multidegree.mem_support.1 hg) (hcount g hg)⟩
    · rintro ⟨hn, hdegree⟩
      obtain ⟨g, hg, hsingle⟩ := Table.exists_of_degreeOf_eq_one hdegree
      have hmem := Multidegree.mem_support.2 hg
      exact ⟨g, hmem, Table.eq_of_count (hcontains g hmem) hn ((hcount g hmem).trans hsingle.symm)⟩

end Multidegree

namespace Basis

theorem nameOf_empty (t : Table) (x : BasisId) (n : Name) : (empty t).nameOf x ≠ .ok n := by
  intro hx
  obtain ⟨e, he, -⟩ := nameOf_eq_ok_iff.1 hx
  simp [empty] at he

/-- Generators of different multidegrees, of which there is no element yet, can be entered one after
the other. -/
theorem pushGenerators_eq_none {t : Table} {generators : List Nat} {b : Basis} (hb : b.Built t)
    (hnodup : (generators.filterMap t.generatorName?).Nodup)
    (hnew : ∀ n ∈ generators.filterMap t.generatorName?, ∀ x, b.nameOf x ≠ .ok n) :
    (pushGenerators t generators b).1 = none := by
  induction generators generalizing b with
  | nil => rfl
  | cons g rest ih =>
    rw [pushGenerators_cons]
    cases hname : t.generatorName? g with
    | none =>
      rw [List.filterMap_cons_none hname] at hnodup hnew
      exact ih hb hnodup hnew
    | some name =>
      rw [List.filterMap_cons_some hname] at hnodup hnew
      rw [List.nodup_cons] at hnodup
      rw [List.forall_mem_cons] at hnew
      have hcontains : t.contains name = true := by
        obtain ⟨m, -, hm⟩ := Option.bind_eq_some_iff.1 hname
        exact Table.contains_iff.2 ⟨m, Table.name?_eq_some_iff.1 hm⟩
      obtain ⟨b', hb'⟩ := hb.exists_push none hcontains rfl fun x hx => absurd hx (hnew.1 x)
      simp only [hb']
      refine ih (hb.push hb') hnodup.2 fun n hn x hx => ?_
      rcases (nameOf_push hb').1 hx with hx | ⟨-, rfl⟩
      · exact hnew.2 n hn x hx
      · exact hnodup.1 hn

/-- All generators of the target are entered. -/
theorem entries_pushAllGenerators {t : Table} (hsize : t.target.generators ≤ byteCapacity) :
    ((empty t).pushAllGenerators t).1 = none ∧
      ((empty t).pushAllGenerators t).2.entries.toList = t.generatorNames.map (⟨none, ·⟩) := by
  have hnone : ((empty t).pushAllGenerators t).1 = none :=
    pushGenerators_eq_none .empty (Table.nodup_generatorNames hsize).1
      fun n _ x => nameOf_empty t x n
  exact ⟨hnone, entries_pushGenerators_of_none hnone⟩

theorem nameOf_pushAllGenerators {t : Table} (hsize : t.target.generators ≤ byteCapacity)
    {x : BasisId} {n : Name} :
    ((empty t).pushAllGenerators t).2.nameOf x = .ok n ↔ t.generatorNames[x]? = some n := by
  rw [nameOf_eq_ok_iff, ← Array.getElem?_toList, (entries_pushAllGenerators hsize).2,
    List.getElem?_map]
  cases t.generatorNames[x]? <;> simp

theorem factors_pushAllGenerators {t : Table} (hsize : t.target.generators ≤ byteCapacity)
    {x : BasisId} {factors : Option (BasisId × BasisId)}
    (h : ((empty t).pushAllGenerators t).2.factors x = .ok factors) : factors = none := by
  obtain ⟨e, he, rfl⟩ := factors_eq_ok_iff.1 h
  have hmem : e ∈ ((empty t).pushAllGenerators t).2.entries.toList :=
    List.mem_of_getElem? (Array.getElem?_toList.trans he)
  rw [(entries_pushAllGenerators hsize).2] at hmem
  obtain ⟨n, -, rfl⟩ := List.mem_map.1 hmem
  rfl

end Basis

namespace PartialAlgebra

/-! ## Products of one multidegree -/

/-- The known products are the elements with factors, each the product of its factors. -/
def Recorded (s : Basis × ProductTable) : Prop :=
  ∀ l r e, s.2.product? l r = some e ↔
    ∃ x, e = Element.basis x ∧ s.1.factors x = .ok (some (l, r))

/-- A product that is not known yet can be entered as a new element. -/
theorem Recorded.push {b b' : Basis} {p : ProductTable} (h : Recorded (b, p)) {l r : BasisId}
    {name : Name} (hb : b.push (some (l, r)) name = .ok b') (hnew : p.product? l r = none) :
    Recorded (b', ⟨p.products.insert (l, r) (Element.basis b.size)⟩) := by
  intro l' r' e
  simp only [ProductTable.product?_insert, Basis.factors_push hb, Option.some_inj, Prod.mk.injEq]
  by_cases hlr : l = l' ∧ r = r'
  · obtain ⟨rfl, rfl⟩ := hlr
    simp only [and_self, if_true, and_true, Option.some_inj]
    constructor
    · rintro rfl
      exact ⟨b.size, rfl, .inr rfl⟩
    · rintro ⟨x, rfl, hx | rfl⟩
      · cases hnew.symm.trans ((h l r _).2 ⟨x, rfl, hx⟩)
      · rfl
  · have hrl : ¬ (l' = l ∧ r' = r) := fun heq => hlr ⟨heq.1.symm, heq.2.symm⟩
    simp only [hlr, hrl, if_false, and_false, or_false]
    exact h l' r' e

section
variable (f : PrimeField) (t : Table)

/-- How far the products of a multidegree have been entered: the elements of all others are those
`before`, its own elements are the last ones, and the products in `known` are the known ones. -/
structure Filling (name : Name) (before : Basis) (known : BasisId → BasisId → Prop)
    (s : Basis × ProductTable) : Prop where
  entered : IsEntered f t s
  others : ∀ n ≠ name, s.1.ofName n = before.ofName n
  last : ∀ x, s.1.nameOf x = .ok name → s.1.nameOf (s.1.size - 1) = .ok name
  generators : ∀ x, s.1.factors x = .ok none → before.factors x = .ok none
  recorded : Recorded s
  products : ∀ l r, (∃ e, s.2.product? l r = some e) ↔ known l r

end

section
variable {f : PrimeField} {t : Table} {name left right : Name} {before : Basis}
  {known : BasisId → BasisId → Prop} {s : Basis × ProductTable}

theorem IsEntered.basis (h : IsEntered f t s) : s.1.Built t := Built.basis h

theorem Filling.congr {known' : BasisId → BasisId → Prop} (h : Filling f t name before known s)
    (hknown : ∀ l r, known l r ↔ known' l r) : Filling f t name before known' s :=
  ⟨h.entered, h.others, h.last, h.generators, h.recorded,
    fun l r => (h.products l r).trans (hknown l r)⟩

theorem Filling.mem_before (h : Filling f t name before known s) {n : Name} (hn : n ≠ name)
    {x : BasisId} : x ∈ before.ofName n ↔ s.1.nameOf x = .ok n := by
  rw [← h.others n hn, h.entered.basis.mem_ofName]

theorem Filling.exists_pushProduct (h : Filling f t name before known s) {l r : BasisId}
    (hl : s.1.nameOf l = .ok left) (hr : s.1.nameOf r = .ok right)
    (hadd : t.add left right = .ok (some name)) (hnew : ¬ known l r) :
    ∃ s', pushProduct t name l r s.1 s.2 = .ok s' ∧
      Filling f t name before (fun l' r' => known l' r' ∨ l = l' ∧ r = r') s' := by
  have hcl := Basis.contains_iff.2 ⟨left, hl⟩
  have hcr := Basis.contains_iff.2 ⟨right, hr⟩
  have hbasis := h.entered.basis
  have hname := ((Table.add_eq_some_iff (hbasis.contains_of_nameOf hl)
    (hbasis.contains_of_nameOf hr)).1 hadd).1
  obtain ⟨b, hb⟩ := hbasis.exists_push (some (l, r)) hname
    (by simp [Basis.strangeFactor?, hcl, hcr]) h.last
  have hbnew : b.nameOf s.1.size = .ok name := (Basis.nameOf_push hb).2 (.inr ⟨rfl, rfl⟩)
  have henter := ProductTable.exists_enter (p := s.2) (Basis.nameOf_of_push hb hl)
    (Basis.nameOf_of_push hb hr) hbnew hadd
  have hpush : pushProduct t name l r s.1 s.2 =
      .ok (b, ⟨s.2.products.insert (l, r) (Element.basis s.1.size)⟩) := by
    rw [pushProduct, hb]
    simp only [Except.mapError, bind, Except.bind, henter]
    rfl
  have hnone : s.2.product? l r = none := by
    by_contra hsome
    exact hnew ((h.products l r).1 (Option.ne_none_iff_exists'.1 hsome))
  refine ⟨_, hpush, h.entered.pushProduct hpush, fun n hn => ?_, fun x _ => ?_, fun x hx => ?_,
    h.recorded.push hb hnone, fun l' r' => ?_⟩
  · rw [Basis.ofName_push hb hn, h.others n hn]
  · rwa [Basis.size_push hb, Nat.add_sub_cancel]
  · refine h.generators x (((Basis.factors_push hb).1 hx).resolve_right fun hnewest => ?_)
    cases hnewest.2
  · rw [ProductTable.product?_insert, ← h.products l' r']
    split
    · rename_i heq
      exact ⟨fun _ => .inr heq, fun _ => ⟨_, rfl⟩⟩
    · rename_i hne
      exact (or_iff_left hne).symm

theorem not_mem_of_nodup {α : Type} {done rest l : List α} {a : α} (hl : l.Nodup)
    (h : done ++ a :: rest = l) : a ∉ done := fun ha =>
  (List.nodup_cons.1 (List.nodup_middle.1 (h ▸ hl))).1 (List.mem_append_left _ ha)

theorem Filling.exists_pushRow (h : Filling f t name before known s) (hleft : left ≠ name)
    (hright : right ≠ name) (hadd : t.add left right = .ok (some name)) {l : BasisId}
    (hl : l ∈ before.ofName left) (hnew : ∀ r ∈ before.ofName right, ¬ known l r) :
    ∃ s', (s.1.ofName right).foldlM (fun s r => pushProduct t name l r s.1 s.2) s = .ok s' ∧
      Filling f t name before
        (fun l' r' => known l' r' ∨ l = l' ∧ r' ∈ before.ofName right) s' := by
  rw [h.others right hright]
  refine exists_foldlM
    (P := fun done => Filling f t name before fun l' r' => known l' r' ∨ l = l' ∧ r' ∈ done)
    (fun done r rest hlist s hs => ?_) (h.congr fun l' r' => by simp)
  have hr : r ∈ before.ofName right := hlist ▸ by simp
  have hfresh : r ∉ done := not_mem_of_nodup (before.nodup_ofName right) hlist
  obtain ⟨s', hs', hfilling⟩ :=
    hs.exists_pushProduct ((hs.mem_before hleft).1 hl) ((hs.mem_before hright).1 hr) hadd
      fun hknown => hknown.elim (hnew r hr) fun hdone => hfresh hdone.2
  exact ⟨s', hs', hfilling.congr fun l' r' => by grind⟩

theorem Filling.exists_pushProducts (h : Filling f t name before known s) (hleft : left ≠ name)
    (hright : right ≠ name) (hadd : t.add left right = .ok (some name))
    (hnew : ∀ l ∈ before.ofName left, ∀ r ∈ before.ofName right, ¬ known l r) :
    ∃ s', pushProducts t name left right s.1 s.2 = .ok s' ∧
      Filling f t name before
        (fun l r => known l r ∨ l ∈ before.ofName left ∧ r ∈ before.ofName right) s' := by
  rw [pushProducts, h.others left hleft]
  refine exists_foldlM
    (P := fun done => Filling f t name before fun l r =>
      known l r ∨ l ∈ done ∧ r ∈ before.ofName right)
    (fun done l rest hlist s hs => ?_) (h.congr fun l r => by simp)
  have hl : l ∈ before.ofName left := hlist ▸ by simp
  have hfresh : l ∉ done := not_mem_of_nodup (before.nodup_ofName left) hlist
  obtain ⟨s', hs', hfilling⟩ := hs.exists_pushRow hleft hright hadd hl
    fun r hr hknown => hknown.elim (hnew l hl r hr) fun hdone => hfresh hdone.1
  exact ⟨s', hs', hfilling.congr fun l' r' => by grind⟩

theorem mem_leftNames {d : Nat} {n : Name} :
    n ∈ leftNames t d ↔ t.contains n = true ∧ 1 ≤ t.degreeOf n ∧ t.degreeOf n < d := by
  simp only [leftNames, List.mem_flatMap, List.mem_range'_1, Table.mem_ofDegree]
  refine ⟨fun h => ?_, fun h => ?_⟩
  · obtain ⟨e, he, hn, rfl⟩ := h
    exact ⟨hn, by omega⟩
  · exact ⟨t.degreeOf n, by omega, h.1, rfl⟩

theorem nodup_leftNames (d : Nat) : (leftNames t d).Nodup := by
  refine List.nodup_flatMap.2 ⟨fun e _ => t.nodup_ofDegree e, ?_⟩
  have hsorted : (List.range' 1 (d - 1)).Pairwise (· < ·) := List.pairwise_lt_range'
  refine hsorted.imp fun hlt n hn hn' => ?_
  exact hlt.ne ((Table.mem_ofDegree.1 hn).2.symm.trans (Table.mem_ofDegree.1 hn').2)

/-- What is entered for one left factor's multidegree. -/
theorem Filling.exists_pushLeft (h : Filling f t name before known s)
    (hname : t.contains name = true) (hleft : left ∈ leftNames t (t.degreeOf name))
    (hnew : ∀ right, t.count left + t.count right = t.count name →
      ∀ l ∈ before.ofName left, ∀ r ∈ before.ofName right, ¬ known l r) :
    ∃ s', (do
        match ← (t.subtract name left).mapError AlgebraError.fault with
        | some right => pushProducts t name left right s.1 s.2
        | none => return s) = .ok s' ∧
      Filling f t name before (fun l r => known l r ∨ ∃ right, t.contains right = true ∧
        t.count left + t.count right = t.count name ∧
          l ∈ before.ofName left ∧ r ∈ before.ofName right) s' := by
  obtain ⟨hleft, hpos, hlt⟩ := mem_leftNames.1 hleft
  obtain ⟨right?, hsub⟩ := Table.subtract_eq_ok hname hleft
  have hright : ∀ right, t.contains right = true ∧ t.count left + t.count right = t.count name ↔
      right? = some right := fun right => by
    rw [← Table.subtract_eq_some_iff hname hleft, hsub, Except.ok.injEq]
  rw [hsub]
  cases hcase : right? with
  | none =>
    refine ⟨s, rfl, h.congr fun l r => (or_iff_left ?_).symm⟩
    rintro ⟨right, hcontains, hsum, -⟩
    cases hcase.symm.trans ((hright right).1 ⟨hcontains, hsum⟩)
  | some right =>
    obtain ⟨hcontains, hsum⟩ := (hright right).2 hcase
    have hdegree := Table.degreeOf_add hsum
    have hadd : t.add left right = .ok (some name) :=
      (Table.add_eq_some_iff hleft hcontains).2 ⟨hname, hsum⟩
    obtain ⟨s', hs', hfilling⟩ :=
      h.exists_pushProducts (by rintro rfl; omega) (by rintro rfl; omega) hadd (hnew right hsum)
    refine ⟨s', hs', hfilling.congr fun l r => or_congr_right ?_⟩
    constructor
    · exact fun hlr => ⟨right, hcontains, hsum, hlr⟩
    · rintro ⟨right', hcontains', hsum', hlr⟩
      obtain rfl := Option.some_inj.1 (hcase.symm.trans ((hright right').1 ⟨hcontains', hsum'⟩))
      exact hlr

/-- All products of a multidegree can be entered, if none of them is known. -/
theorem Filling.exists_pushName (h : Filling f t name before known s)
    (hname : t.contains name = true)
    (hnew : ∀ left right, t.count left + t.count right = t.count name →
      ∀ l ∈ before.ofName left, ∀ r ∈ before.ofName right, ¬ known l r) :
    ∃ s', pushName t (t.degreeOf name) s.1 s.2 name = .ok s' ∧
      Filling f t name before (fun l r => known l r ∨
        ∃ left ∈ leftNames t (t.degreeOf name), ∃ right, t.contains right = true ∧
          t.count left + t.count right = t.count name ∧
            l ∈ before.ofName left ∧ r ∈ before.ofName right) s' := by
  have hne : ∀ n ∈ leftNames t (t.degreeOf name), n ≠ name := fun n hn heq =>
    (heq ▸ (mem_leftNames.1 hn).2.2).false
  rw [pushName]
  refine exists_foldlM
    (P := fun done => Filling f t name before fun l r => known l r ∨ ∃ left ∈ done, ∃ right,
      t.contains right = true ∧ t.count left + t.count right = t.count name ∧
        l ∈ before.ofName left ∧ r ∈ before.ofName right)
    (fun done left rest hlist s hs => ?_) (h.congr fun l r => by simp)
  have hleft : left ∈ leftNames t (t.degreeOf name) := hlist ▸ by simp
  have hfresh : left ∉ done := not_mem_of_nodup (nodup_leftNames _) hlist
  obtain ⟨s', hs', hfilling⟩ := hs.exists_pushLeft hname hleft fun right hsum l hl r hr => by
    rintro (hknown | ⟨left', hleft', right', -, -, hl', -⟩)
    · exact hnew left right hsum l hl r hr hknown
    · -- an element has one multidegree only
      have hmem : left' ∈ leftNames t (t.degreeOf name) := hlist ▸ List.mem_append_left _ hleft'
      have hnames := ((hs.mem_before (hne left hleft)).1 hl).symm.trans
        ((hs.mem_before (hne left' hmem)).1 hl')
      exact hfresh (Except.ok.inj hnames ▸ hleft')
  refine ⟨s', hs', hfilling.congr fun l r => ?_⟩
  simp only [List.mem_append, List.mem_singleton, or_and_right, exists_or, exists_eq_left, or_assoc]

/-! ## All products -/

/-- What is known once some multidegrees are done: one element of each generator and the products of
the done ones, and no element of another one. -/
structure FilledUpTo (f : PrimeField) (t : Table) (done : Name → Prop) (s : Basis × ProductTable) :
    Prop where
  entered : IsEntered f t s
  names : ∀ x n, s.1.nameOf x = .ok n → done n ∧ 0 < t.degreeOf n
  generators : ∀ n, t.contains n = true → t.degreeOf n = 1 →
    ∃ x, ∀ y, s.1.nameOf y = .ok n ↔ y = x
  unfactored : ∀ x, s.1.factors x = .ok none → ∃ n, s.1.nameOf x = .ok n ∧ t.degreeOf n = 1
  recorded : Recorded s
  products : ∀ l r, (∃ e, s.2.product? l r = some e) ↔ ∃ m n k, s.1.nameOf l = .ok m ∧
    s.1.nameOf r = .ok n ∧ t.add m n = .ok (some k) ∧ done k

variable {done : Name → Prop}

theorem FilledUpTo.congr {done' : Name → Prop} (h : FilledUpTo f t done s)
    (hdone : ∀ n, t.contains n = true → (done n ↔ done' n)) : FilledUpTo f t done' s where
  entered := h.entered
  names x n hx := (h.names x n hx).imp_left (hdone n (h.entered.basis.contains_of_nameOf hx)).1
  generators := h.generators
  unfactored := h.unfactored
  recorded := h.recorded
  products l r := by
    have hbasis := h.entered.basis
    refine (h.products l r).trans (exists_congr fun m => exists_congr fun n => exists_congr fun k =>
      and_congr_right fun hl => and_congr_right fun hr => and_congr_right fun hadd => ?_)
    exact hdone k ((Table.add_eq_some_iff (hbasis.contains_of_nameOf hl)
      (hbasis.contains_of_nameOf hr)).1 hadd).1

/-- A product that is known is a basis element. -/
theorem FilledUpTo.exists_product (h : FilledUpTo f t done s) {l r : BasisId} {m n k : Name}
    (hl : s.1.nameOf l = .ok m) (hr : s.1.nameOf r = .ok n) (hadd : t.add m n = .ok (some k))
    (hk : done k) : ∃ x, s.2.product? l r = some (Element.basis x) := by
  obtain ⟨e, he⟩ := (h.products l r).2 ⟨m, n, k, hl, hr, hadd, hk⟩
  obtain ⟨x, rfl, -⟩ := (h.recorded l r e).1 he
  exact ⟨x, he⟩

/-- Once the generators are entered, no product is to be known yet. -/
theorem FilledUpTo.generators_only (f : PrimeField) (hsize : t.target.generators ≤ byteCapacity) :
    FilledUpTo f t (fun n => t.degreeOf n < 2)
      (((Basis.empty t).pushAllGenerators t).2, .empty) := by
  obtain ⟨hnodup, hmem⟩ := Table.nodup_generatorNames hsize
  have hname := fun x n => Basis.nameOf_pushAllGenerators hsize (x := x) (n := n)
  have hone : ∀ x n, ((Basis.empty t).pushAllGenerators t).2.nameOf x = .ok n →
      t.degreeOf n = 1 := fun x n hx =>
    ((hmem n).1 (List.mem_of_getElem? ((hname x n).1 hx))).2
  have hempty : ∀ l r e, (ProductTable.empty).product? l r ≠ some e := fun l r e he => by
    simp [ProductTable.product?, ProductTable.empty] at he
  refine ⟨(Built.empty f t).pushAllGenerators, fun x n hx => ?_, fun n hn hdegree => ?_,
    fun x hx => ?_, fun l r e => ⟨fun he => absurd he (hempty l r e), ?_⟩,
    fun l r => ⟨fun he => he.elim fun e he => absurd he (hempty l r e), ?_⟩⟩
  · have := hone x n hx
    omega
  · obtain ⟨x, hx⟩ := List.getElem?_of_mem ((hmem n).2 ⟨hn, hdegree⟩)
    refine ⟨x, fun y => (hname y n).trans ⟨fun hy => ?_, fun hy => hy ▸ hx⟩⟩
    obtain ⟨hlt, -⟩ := List.getElem?_eq_some_iff.1 hy
    exact (List.getElem?_inj hlt hnodup).1 (hy.trans hx.symm)
  · obtain ⟨e, he, -⟩ := Basis.factors_eq_ok_iff.1 hx
    have hx := Basis.nameOf_eq_ok_iff.2 ⟨e, he, rfl⟩
    exact ⟨e.name, hx, hone x e.name hx⟩
  · rintro ⟨x, -, hx⟩
    cases Basis.factors_pushAllGenerators hsize hx
  · rintro ⟨m, n, k, hl, hr, hadd, hk⟩
    have hbasis := Basis.Built.empty.pushAllGenerators (t := t)
    have hsum := ((Table.add_eq_some_iff (hbasis.contains_of_nameOf hl)
      (hbasis.contains_of_nameOf hr)).1 hadd).2
    have hdegrees := Table.degreeOf_add hsum
    have hm := hone l m hl
    have hn := hone r n hr
    omega

/-- No product of a multidegree that is not done is known. -/
theorem FilledUpTo.unknown (h : FilledUpTo f t done s) (hname : t.contains name = true)
    (hnew : ¬ done name) {left right : Name} (hsum : t.count left + t.count right = t.count name)
    {l r : BasisId} (hl : l ∈ s.1.ofName left) (hr : r ∈ s.1.ofName right) :
    ¬ ∃ e, s.2.product? l r = some e := by
  intro hknown
  obtain ⟨m, n, k, hm, hn, hadd, hk⟩ := (h.products l r).1 hknown
  have hbasis := h.entered.basis
  cases hm.symm.trans (hbasis.mem_ofName.1 hl)
  cases hn.symm.trans (hbasis.mem_ofName.1 hr)
  obtain ⟨hcontains, hsum'⟩ := (Table.add_eq_some_iff (hbasis.contains_of_nameOf hm)
    (hbasis.contains_of_nameOf hn)).1 hadd
  exact hnew (Table.eq_of_count hcontains hname (hsum'.symm.trans hsum) ▸ hk)

section
variable {s' : Basis × ProductTable} (h : FilledUpTo f t done s)
  (hfilling : Filling f t name s.1 known s')
include h hfilling

/-- The elements of other multidegrees are those that were there before. -/
theorem FilledUpTo.nameOf_iff {n : Name} (hn : n ≠ name) {x : BasisId} :
    s'.1.nameOf x = .ok n ↔ s.1.nameOf x = .ok n := by
  rw [← hfilling.mem_before hn, h.entered.basis.mem_ofName]

/-- What was there before keeps its multidegree. -/
theorem FilledUpTo.nameOf_of_nameOf (hnew : ¬ done name) {x : BasisId} {n : Name}
    (hx : s.1.nameOf x = .ok n) : s'.1.nameOf x = .ok n := by
  have hn : n ≠ name := fun heq => hnew (heq ▸ (h.names x n hx).1)
  exact (h.nameOf_iff hfilling hn).2 hx

theorem FilledUpTo.names_after (hdegree : 2 ≤ t.degreeOf name) {x : BasisId} {n : Name}
    (hx : s'.1.nameOf x = .ok n) : (done n ∨ n = name) ∧ 0 < t.degreeOf n := by
  by_cases hn : n = name
  · subst hn
    exact ⟨.inr rfl, by omega⟩
  · exact (h.names x n ((h.nameOf_iff hfilling hn).1 hx)).imp_left .inl

end

/-- The known products after those of one more multidegree have been entered. -/
theorem FilledUpTo.products_after {s' : Basis × ProductTable} (h : FilledUpTo f t done s)
    (hname : t.contains name = true) (hdegree : 2 ≤ t.degreeOf name) (hnew : ¬ done name)
    (hdone : ∀ n, done n → t.degreeOf n ≤ t.degreeOf name)
    (hfilling : Filling f t name s.1 (fun l r => (∃ e, s.2.product? l r = some e) ∨
      ∃ left ∈ leftNames t (t.degreeOf name), ∃ right, t.contains right = true ∧
        t.count left + t.count right = t.count name ∧
          l ∈ s.1.ofName left ∧ r ∈ s.1.ofName right) s') (l r : BasisId) :
    (∃ e, s'.2.product? l r = some e) ↔ ∃ m n k, s'.1.nameOf l = .ok m ∧
      s'.1.nameOf r = .ok n ∧ t.add m n = .ok (some k) ∧ (done k ∨ k = name) := by
  refine (hfilling.products l r).trans ⟨?_, ?_⟩
  · intro hknown
    rcases hknown with hknown | ⟨left, hleft, right, hright, hsum, hl, hr⟩
    · obtain ⟨m, n, k, hm, hn, hadd, hk⟩ := (h.products l r).1 hknown
      exact ⟨m, n, k, h.nameOf_of_nameOf hfilling hnew hm, h.nameOf_of_nameOf hfilling hnew hn,
        hadd, .inl hk⟩
    · have hadd : t.add left right = .ok (some name) :=
        (Table.add_eq_some_iff (mem_leftNames.1 hleft).1 hright).2 ⟨hname, hsum⟩
      exact ⟨left, right, name,
        h.nameOf_of_nameOf hfilling hnew (h.entered.basis.mem_ofName.1 hl),
        h.nameOf_of_nameOf hfilling hnew (h.entered.basis.mem_ofName.1 hr), hadd, .inr rfl⟩
  · -- the factors have smaller degrees than the name, so they were there before
    intro hnames
    obtain ⟨m, n, k, hl, hr, hadd, hk⟩ := hnames
    have hbasis := hfilling.entered.basis
    have hm := hbasis.contains_of_nameOf hl
    have hn := hbasis.contains_of_nameOf hr
    obtain ⟨-, hsum⟩ := (Table.add_eq_some_iff hm hn).1 hadd
    have hk' : t.degreeOf k ≤ t.degreeOf name := hk.elim (hdone k) fun hk => hk ▸ le_rfl
    have hdegrees := Table.degreeOf_add hsum
    have hmpos := (h.names_after hfilling hdegree hl).2
    have hnpos := (h.names_after hfilling hdegree hr).2
    have hmne : m ≠ name := by
      rintro rfl
      omega
    have hnne : n ≠ name := by
      rintro rfl
      omega
    have hl' := (h.nameOf_iff hfilling hmne).1 hl
    have hr' := (h.nameOf_iff hfilling hnne).1 hr
    rcases hk with hk | rfl
    · exact .inl ((h.products l r).2 ⟨m, n, k, hl', hr', hadd, hk⟩)
    · exact .inr ⟨m, mem_leftNames.2 ⟨hm, hmpos, by omega⟩, n, hn, hsum,
        h.entered.basis.mem_ofName.2 hl', h.entered.basis.mem_ofName.2 hr'⟩

theorem FilledUpTo.exists_pushName (h : FilledUpTo f t done s) (hname : t.contains name = true)
    (hdegree : 2 ≤ t.degreeOf name) (hnew : ¬ done name)
    (hdone : ∀ n, done n → t.degreeOf n ≤ t.degreeOf name) :
    ∃ s', pushName t (t.degreeOf name) s.1 s.2 name = .ok s' ∧
      FilledUpTo f t (fun n => done n ∨ n = name) s' := by
  have hstart : Filling f t name s.1 (fun l r => ∃ e, s.2.product? l r = some e) s :=
    ⟨h.entered, fun n _ => rfl, fun x hx => absurd (h.names x name hx).1 hnew, fun x => id,
      h.recorded, fun l r => Iff.rfl⟩
  obtain ⟨s', hs', hfilling⟩ := hstart.exists_pushName hname fun left right hsum l hl r hr =>
    h.unknown hname hnew hsum hl hr
  have hone : ∀ n, t.degreeOf n = 1 → n ≠ name := fun n hn heq => by
    rw [heq] at hn
    omega
  refine ⟨s', hs', hfilling.entered, fun x n hx => h.names_after hfilling hdegree hx,
    fun n hn hdegree => ?_, fun x hx => ?_, hfilling.recorded,
    h.products_after hname hdegree hnew hdone hfilling⟩
  · exact (h.generators n hn hdegree).imp fun x hx y =>
      (h.nameOf_iff hfilling (hone n hdegree)).trans (hx y)
  · obtain ⟨n, hn, hdegree⟩ := h.unfactored x (hfilling.generators x hx)
    exact ⟨n, (h.nameOf_iff hfilling (hone n hdegree)).2 hn, hdegree⟩

/-- All products of one degree can be entered after those of smaller degrees. -/
theorem FilledUpTo.exists_pushDegree {degrees : List Nat} {d : Nat} (hd : 2 ≤ d)
    (hlt : ∀ e ∈ degrees, e < d)
    (h : FilledUpTo f t (fun n => t.degreeOf n < 2 ∨ t.degreeOf n ∈ degrees) s) :
    ∃ s', (t.ofDegree d).foldlM (fun s name => pushName t d s.1 s.2 name) s = .ok s' ∧
      FilledUpTo f t (fun n => t.degreeOf n < 2 ∨ t.degreeOf n ∈ degrees ++ [d]) s' := by
  have hsmall : ∀ n, t.degreeOf n < 2 ∨ t.degreeOf n ∈ degrees → t.degreeOf n < d := fun n hn =>
    hn.elim (fun hn => hn.trans_le hd) (hlt _)
  obtain ⟨s', hs', hfilled⟩ := exists_foldlM (s := s) (l := t.ofDegree d)
    (f := fun s name => pushName t d s.1 s.2 name)
    (P := fun names => FilledUpTo f t fun n =>
      (t.degreeOf n < 2 ∨ t.degreeOf n ∈ degrees) ∨ n ∈ names)
    (fun names name rest hlist s hs => by
      have hmem : name ∈ t.ofDegree d := hlist ▸ by simp
      have hnodup : (names ++ name :: rest).Nodup := hlist ▸ t.nodup_ofDegree d
      have hbefore : ∀ n ∈ names, t.degreeOf n = d := fun n hn =>
        (Table.mem_ofDegree.1 (hlist ▸ List.mem_append_left _ hn)).2
      obtain ⟨hname, rfl⟩ := Table.mem_ofDegree.1 hmem
      obtain ⟨s', hs', hfilled⟩ := hs.exists_pushName hname hd
        (fun hdone => hdone.elim (fun hdone => (hsmall name hdone).false) fun hdone =>
          (List.nodup_append.1 hnodup).2.2 name hdone name List.mem_cons_self rfl)
        fun n hn => hn.elim (fun hn => (hsmall n hn).le) fun hn => (hbefore n hn).le
      exact ⟨s', hs', hfilled.congr fun n _ => by
        rw [List.mem_append, List.mem_singleton, or_assoc]⟩)
    (h.congr fun n _ => by simp)
  refine ⟨s', hs', hfilled.congr fun n hn => ?_⟩
  rw [Table.mem_ofDegree, List.mem_append, List.mem_singleton, or_assoc, and_iff_right hn]

end

/-! ## The algebra -/

/-- Up to degree `d`, every multidegree has an element and every product is a basis element. There
are generators in any case. -/
structure IsFreeTo (a : PartialAlgebra) (d : Nat) : Prop where
  built : a.Built
  elements : ∀ n, a.table.contains n = true → 0 < a.table.degreeOf n →
    a.table.degreeOf n ≤ max 1 d → ∃ x, a.basis.nameOf x = .ok n
  products : ∀ l r m n k, a.basis.nameOf l = .ok m → a.basis.nameOf r = .ok n →
    a.table.add m n = .ok (some k) → a.table.degreeOf k ≤ d →
      ∃ x, a.products.product? l r = some (Element.basis x)

/-- Every multidegree of degree at least two is that of a product of a generator. -/
theorem FilledUpTo.isFreeTo {f : PrimeField} {t : Table} {s : Basis × ProductTable}
    {done : Name → Prop} (h : FilledUpTo f t done s) {d : Nat}
    (hdone : ∀ n, t.degreeOf n ≤ d → done n) : IsFreeTo ⟨f, t, s.1, s.2⟩ d := by
  refine ⟨h.entered, fun k => ?_, fun l r m n k hl hr hadd hk =>
    h.exists_product hl hr hadd (hdone k hk)⟩
  simp only
  induction hdegree : t.degreeOf k using Nat.strong_induction_on generalizing k with
  | _ degree ih =>
    intro hk hpos hle
    by_cases hone : degree = 1
    · exact (h.generators k hk (hdegree.trans hone)).imp fun x hx => (hx x).2 rfl
    obtain ⟨m, n, hm, hn, hmone, hsum⟩ := Table.exists_add_of_degreeOf_pos (hdegree ▸ hpos)
    have hdegrees := Table.degreeOf_add hsum
    obtain ⟨l, hl⟩ := (h.generators m hm hmone).imp fun x hx => (hx x).2 rfl
    obtain ⟨r, hr⟩ := ih (t.degreeOf n) (by omega) n rfl hn (by omega) (by omega)
    have hadd := (Table.add_eq_some_iff hm hn).2 ⟨hk, hsum⟩
    obtain ⟨x, hx⟩ := h.exists_product hl hr hadd (hdone k (by omega))
    obtain ⟨-, m', n', hm', hn', hterms⟩ := h.entered.typed l r _ hx
    cases hl.symm.trans hm'
    cases hr.symm.trans hn'
    obtain ⟨k', hk', hadd'⟩ := hterms (x, 1) (List.mem_singleton_self _)
    cases hadd.symm.trans hadd'
    exact ⟨x, hk'⟩

/-- The truncated free algebra can be set up for every target with a generator, and then all
multidegrees up to the degree of truncation are done. -/
theorem exists_free_filledUpTo (f : PrimeField) {target : Multidegree}
    (hpos : 0 < target.generators) (hsize : target.generators ≤ byteCapacity) (maxDegree : Nat) :
    ∃ t s, Table.ofTarget target = .ok t ∧ t.target = target ∧
      free f target maxDegree = .ok ⟨f, t, s.1, s.2⟩ ∧
      FilledUpTo f t (fun n => t.degreeOf n ≤ max 1 maxDegree) s := by
  obtain ⟨t, ht, htarget⟩ : ∃ t, Table.ofTarget target = .ok t ∧ t.target = target := by
    rw [Table.ofTarget, dif_pos hpos]
    exact ⟨_, rfl, rfl⟩
  subst htarget
  obtain ⟨hnone, -⟩ := Basis.entries_pushAllGenerators hsize
  have hstart : FilledUpTo f t (fun n => t.degreeOf n < 2 ∨ t.degreeOf n ∈ [])
      (((Basis.empty t).pushAllGenerators t).2, .empty) :=
    (FilledUpTo.generators_only f hsize).congr fun n _ => (or_iff_left List.not_mem_nil).symm
  obtain ⟨s, hs, hfilled⟩ := exists_foldlM
    (l := List.range' 2 (min maxDegree t.target.degree - 1))
    (f := fun s d => (t.ofDegree d).foldlM (fun s name => pushName t d s.1 s.2 name) s)
    (P := fun degrees => FilledUpTo f t fun n => t.degreeOf n < 2 ∨ t.degreeOf n ∈ degrees)
    (fun degrees d rest hlist s hs => by
      have hd : d ∈ List.range' 2 (min maxDegree t.target.degree - 1) := hlist ▸ by simp
      have hsorted : (degrees ++ d :: rest).Pairwise (· < ·) := hlist ▸ List.pairwise_lt_range'
      exact hs.exists_pushDegree (List.mem_range'_1.1 hd).1 fun e he =>
        (List.pairwise_append.1 hsorted).2.2 e he d List.mem_cons_self) hstart
  refine ⟨t, s, ht, rfl, ?_, hfilled.congr fun n hn => ?_⟩
  · simp only [free, ht, Except.mapError, bind, Except.bind, hnone, hs]
    rfl
  · have := Table.degreeOf_le_target (t := t) n
    rw [List.mem_range'_1]
    omega

theorem exists_free (f : PrimeField) {target : Multidegree} (hpos : 0 < target.generators)
    (hsize : target.generators ≤ byteCapacity) (maxDegree : Nat) :
    ∃ a, free f target maxDegree = .ok a ∧ a.field = f ∧ Table.ofTarget target = .ok a.table ∧
      a.IsFreeTo maxDegree := by
  obtain ⟨t, s, ht, -, hfree, hfilled⟩ := exists_free_filledUpTo f hpos hsize maxDegree
  exact ⟨_, hfree, rfl, ht, hfilled.isFreeTo fun n hn => hn.trans (le_max_right 1 maxDegree)⟩

end PartialAlgebra

end Nonassoc
