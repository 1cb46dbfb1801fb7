import Nonassoc.Proofs.MonomialCounts

/-!
# The size of the truncated free algebra

The elements of a multidegree stand one-to-one for the monomials with its multiplicities
(`PartialAlgebra.FilledUpTo.card_elements`), so that their number has a closed form; multidegrees out
of range have no element. Every known product is an element with factors, and the other way round
(`PartialAlgebra.FilledUpTo.size_products`).
-/

namespace Nonassoc

open Multidegree (Name Table)

/-! ## Multiplicities of a name -/

namespace Multidegree

/-- The multiplicities of a multidegree. -/
noncomputable def content (m : Multidegree) : ℕ →₀ ℕ :=
  Finsupp.onFinset (Finset.range m.generators) m.count fun _ hg =>
    Finset.mem_range.2 (Nat.lt_of_not_le fun hle => hg (count_of_generators_le hle))

theorem coe_content (m : Multidegree) : ⇑m.content = m.count := rfl

theorem support_content (m : Multidegree) : m.content.support ⊆ Finset.range m.generators :=
  Finsupp.support_onFinset_subset

theorem degree_content (m : Multidegree) : m.content.degree = m.degree := by
  rw [degree_eq_sum le_rfl, Finsupp.degree_apply,
    Finset.sum_subset m.support_content fun g _ hg => Finsupp.notMem_support_iff.1 hg, coe_content]

theorem treesAndWords_content (m : Multidegree) : treesAndWords m.content =
    catalan (m.degree - 1) * Nat.multinomial (Finset.range m.generators) m.count := by
  rw [treesAndWords, degree_content, Finsupp.multinomial_eq_of_support_subset m.support_content,
    coe_content]

end Multidegree

theorem Monomial.content_eq_iff {u : Monomial} {m : Multidegree} :
    content u = m.content ↔ u.count = m.count := by
  rw [← coe_content, ← m.coe_content, DFunLike.coe_fn_eq]

theorem Basis.Built.countOfName_eq {t : Table} {b : Basis} (h : b.Built t) (n : Name) :
    b.countOfName n = Nat.card {x // b.nameOf x = .ok n} := by
  have hmem : ∀ x, x ∈ (⟨b.ofName n, b.nodup_ofName n⟩ : Finset BasisId) ↔ b.nameOf x = .ok n :=
    fun x => h.mem_ofName
  rw [Nat.subtype_card _ hmem]
  exact List.length_range'.symm

namespace PartialAlgebra

section
variable {f : PrimeField} {t : Table} {s : Basis × ProductTable} {d : Nat} {n : Name}
  {m : Multidegree}

/-! ## Elements -/

theorem FilledUpTo.nameOf_iff_content {done : Name → Prop} (h : FilledUpTo f t done s)
    (hm : t.entry n = .ok m) {x : BasisId} {u : Monomial} (hu : s.1.Unfolds t x u) :
    s.1.nameOf x = .ok n ↔ u.content = m.content := by
  obtain ⟨k, hk, hcount, -⟩ := h.name_of_unfolds hu
  rw [Monomial.content_eq_iff, ← hcount, ← Table.count_of_entry hm, hk, Except.ok.injEq]
  exact ⟨fun heq => heq ▸ rfl, Table.eq_of_count (h.entered.basis.contains_of_nameOf hk)
    (Table.contains_iff.2 ⟨m, hm⟩)⟩

/-- The elements of a multidegree stand for the monomials with its multiplicities. -/
theorem FilledUpTo.card_elements (h : FilledUpTo f t (fun n => t.degreeOf n ≤ max 1 d) s)
    (hm : t.entry n = .ok m) (hdegree : m.degree ≤ max 1 d) :
    Nat.card {x // s.1.nameOf x = .ok n} = Nat.card {u : Monomial // u.content = m.content} := by
  have hunfolds : ∀ x : {x // s.1.nameOf x = .ok n}, ∃ u, s.1.Unfolds t x u := fun x =>
    h.exists_unfolds (Basis.contains_iff.2 ⟨n, x.2⟩)
  choose monomial hmonomial using hunfolds
  refine Nat.card_eq_of_bijective
    (fun x => ⟨monomial x, (h.nameOf_iff_content hm (hmonomial x)).1 x.2⟩) ⟨?_, ?_⟩
  · intro x y hxy
    have heq : monomial x = monomial y := congrArg Subtype.val hxy
    exact Subtype.ext (h.eq_of_unfolds (hmonomial x) (heq ▸ hmonomial y))
  · rintro ⟨u, hu⟩
    have hcount : u.count ≤ t.target.count := by
      rw [Monomial.content_eq_iff.1 hu, ← Table.count_of_entry hm]
      exact fun g => Table.count_le_target n g
    have hlength : u.length ≤ max 1 d := by
      rwa [← u.degree_content, hu, m.degree_content]
    obtain ⟨x, hx⟩ := h.exists_of_monomial hcount hlength
    exact ⟨⟨x, (h.nameOf_iff_content hm hx).2 hu⟩,
      Subtype.ext ((hmonomial _).monomial_unique hx)⟩

theorem FilledUpTo.countOfName_eq (h : FilledUpTo f t (fun n => t.degreeOf n ≤ max 1 d) s)
    (hm : t.entry n = .ok m) (hpos : 1 ≤ m.degree) (hdegree : m.degree ≤ max 1 d) :
    s.1.countOfName n =
      catalan (m.degree - 1) * Nat.multinomial (Finset.range m.generators) m.count := by
  have hne : m.content ≠ 0 := by
    rw [ne_eq, ← Finsupp.degree_eq_zero_iff, m.degree_content]
    omega
  rw [h.entered.basis.countOfName_eq, h.card_elements hm hdegree,
    (Monomial.card_content hne).2, m.treesAndWords_content]

theorem FilledUpTo.countOfName_eq_zero {done : Name → Prop} (h : FilledUpTo f t done s)
    (hn : ∀ m, t.entry n = .ok m → m.degree = 0 ∨ ¬ done n) : s.1.countOfName n = 0 := by
  have hempty : IsEmpty {x // s.1.nameOf x = .ok n} := by
    refine ⟨fun x => ?_⟩
    obtain ⟨m, hm⟩ := Table.contains_iff.1 (h.entered.basis.contains_of_nameOf x.2)
    obtain ⟨hdone, hpos⟩ := h.names x n x.2
    rw [Table.degreeOf_of_entry hm] at hpos
    exact (hn m hm).elim hpos.ne' fun hnot => hnot hdone
  rw [h.entered.basis.countOfName_eq, Nat.card_of_isEmpty]

/-! ## Known products -/

/-- No two elements have the same factors. -/
theorem FilledUpTo.nodup_factors {done : Name → Prop} (h : FilledUpTo f t done s) :
    (s.1.entries.toList.filterMap (·.factors)).Nodup := by
  have hpairs : s.1.entries.toList.Pairwise fun e e' =>
      ∀ l r, e.factors = some (l, r) → e'.factors ≠ some (l, r) := by
    refine List.pairwise_iff_getElem.2 fun x y hx hy hlt l r hleft hright => hlt.ne ?_
    exact h.eq_of_factors (Basis.factors_eq_ok_iff.2 ⟨_, Array.getElem?_eq_getElem hx, hleft⟩)
      (Basis.factors_eq_ok_iff.2 ⟨_, Array.getElem?_eq_getElem hy, hright⟩)
  refine hpairs.filterMap _ fun e e' hne k hk k' hk' heq => ?_
  exact hne k.1 k.2 hk (heq ▸ hk')

theorem FilledUpTo.mem_keys_iff {done : Name → Prop} (h : FilledUpTo f t done s) (l r : BasisId) :
    (l, r) ∈ s.2.products.keys ↔ (l, r) ∈ s.1.entries.toList.filterMap (·.factors) := by
  have hknown : (l, r) ∈ s.2.products.keys ↔ ∃ e, s.2.product? l r = some e := by
    rw [Std.HashMap.mem_keys, Std.HashMap.mem_iff_isSome_getElem?, Option.isSome_iff_exists]
    rfl
  rw [hknown, List.mem_filterMap]
  constructor
  · rintro ⟨e, he⟩
    obtain ⟨x, -, hx⟩ := (h.recorded l r e).1 he
    obtain ⟨entry, hentry, hfactors⟩ := Basis.factors_eq_ok_iff.1 hx
    exact ⟨entry, List.mem_of_getElem? (Array.getElem?_toList.trans hentry), hfactors⟩
  · rintro ⟨entry, hentry, hfactors⟩
    obtain ⟨x, hx⟩ := List.getElem?_of_mem hentry
    exact ⟨_, (h.recorded l r _).2 ⟨x, rfl, Basis.factors_eq_ok_iff.2
      ⟨entry, Array.getElem?_toList.symm.trans hx, hfactors⟩⟩⟩

/-- There are as many known products as elements with factors. -/
theorem FilledUpTo.size_products {done : Name → Prop} (h : FilledUpTo f t done s) :
    s.2.size = s.1.entries.countP (·.factors.isSome) := by
  have hperm : s.2.products.keys.Perm (s.1.entries.toList.filterMap (·.factors)) :=
    (List.perm_ext_iff_of_nodup Std.HashMap.nodup_keys h.nodup_factors).2 fun k =>
      h.mem_keys_iff k.1 k.2
  calc s.2.size = s.2.products.keys.length := Std.HashMap.length_keys.symm
    _ = (s.1.entries.toList.filterMap (·.factors)).length := hperm.length_eq
    _ = s.1.entries.countP (·.factors.isSome) := by
      rw [List.length_filterMap_eq_countP, Array.countP_toList]

/-! ## The algebra -/

/-- The sizes of a free algebra up to degree `d`: a multidegree of degree `n` has as many elements as
there are ways to multiply `n` factors, times the number of words with its multiplicities, and no
other name has any. Every element that is not a generator is a known product. -/
structure HasFreeCounts (a : PartialAlgebra) (d : Nat) : Prop where
  count : ∀ n m, a.table.entry n = .ok m → 1 ≤ m.degree →
    m.degree ≤ max 1 (min d a.table.target.degree) → a.basis.countOfName n =
      catalan (m.degree - 1) * Nat.multinomial (Finset.range m.generators) m.count
  count_eq_zero : ∀ n, (∀ m, a.table.entry n = .ok m →
    ¬ (1 ≤ m.degree ∧ m.degree ≤ max 1 (min d a.table.target.degree))) → a.basis.countOfName n = 0
  products : a.products.size = a.basis.entries.countP (·.factors.isSome)

theorem FilledUpTo.hasFreeCounts (h : FilledUpTo f t (fun n => t.degreeOf n ≤ max 1 d) s) :
    HasFreeCounts ⟨f, t, s.1, s.2⟩ d where
  count n m hm hpos hdegree :=
    h.countOfName_eq hm hpos (hdegree.trans (max_le_max_left 1 (min_le_left d _)))
  count_eq_zero n hn := h.countOfName_eq_zero fun m hm => by
    have hrange := hn m hm
    have htarget := Table.degreeOf_le_target (t := t) n
    rw [Table.degreeOf_of_entry hm] at htarget ⊢
    change ¬ (1 ≤ m.degree ∧ m.degree ≤ max 1 (min d t.target.degree)) at hrange
    omega
  products := h.size_products

end

/-- The truncated free algebra can be set up for every target with a generator, over any field and to
any degree, and the numbers of its elements have a closed form. There can be as many generators as a
list has room for bytes. -/
theorem free_counts (f : PrimeField) {target : Multidegree} (hpos : 0 < target.generators)
    (hsize : target.generators ≤ byteCapacity) (maxDegree : Nat) :
    ∃ a, free f target maxDegree = .ok a ∧ Table.ofTarget target = .ok a.table ∧
      a.table.target = target ∧ a.HasFreeCounts maxDegree := by
  obtain ⟨t, s, ht, htarget, hfree, hfilled⟩ := exists_free_filledUpTo f hpos hsize maxDegree
  exact ⟨_, hfree, ht, htarget, hfilled.hasFreeCounts⟩

/-- Below `(2,1)` there are six monomials of full degree: two ways to multiply three factors, for each
of the words `xxy`, `xyx` and `yxx`. -/
theorem free_counts_two_one :
    ∃ a, free .standard ⟨[2, 1]⟩ 3 = .ok a ∧ a.HasFreeCounts 3 ∧
      ∃ n, a.table.entry n = .ok ⟨[2, 1]⟩ ∧ a.basis.countOfName n = 6 := by
  have hpos : 0 < (⟨[2, 1]⟩ : Multidegree).generators := by decide
  obtain ⟨a, ha, -, htarget, hcounts⟩ := free_counts .standard hpos (by decide) 3
  have hle : (⟨[2, 1]⟩ : Multidegree).le a.table.target = true := by
    rw [htarget]
    decide
  obtain ⟨n, hn⟩ := Table.exists_name?_of_le hle
  have hentry := Table.name?_eq_some_iff.1 hn
  refine ⟨a, ha, hcounts, n, hentry, ?_⟩
  rw [hcounts.count n _ hentry (by decide) (by rw [htarget]; decide)]
  show catalan 2 * _ = 6
  rw [catalan_two]
  decide

end PartialAlgebra

end Nonassoc
