import Mathlib.Algebra.BigOperators.Group.Finset.Piecewise
import Mathlib.Algebra.Order.BigOperators.Group.Finset
import Nonassoc.Proofs.Enumeration

/-!
# Names as functions

A name of a table stands for the multiplicities of its multidegree, `Table.count t n`, and for their
sum, `Table.degreeOf t n`. This file says what the look-ups of a table are in these terms:

* names are determined by their multiplicities (`eq_of_count`), and every function that is at most
  the target's is that of a name (`exists_name`);
* `add` and `subtract` are addition and subtraction of functions (`add_eq_some_iff`,
  `subtract_eq_some_iff`);
* `span` gives the names between two degrees (`span_spec`), which are consecutive because degrees
  never decrease from name to name (`degreeOf_mono`);
* `ofDegree` gives the names of one degree (`mem_ofDegree`), and those of degree one are the names of
  the generators (`exists_of_degreeOf_eq_one`).
-/

namespace Nonassoc.Multidegree.Table

variable (t : Table)

/-- How often a generator occurs in the multidegree of a name. -/
def count (n : Name) (g : Nat) : Nat :=
  match t.entry n with
  | .ok m => m.count g
  | .error _ => 0

/-- The degree of a name. -/
def degreeOf (n : Name) : Nat := ∑ g ∈ Finset.range t.target.generators, t.count n g

variable {t}

/-! ## Entries -/

theorem entry_eq_ok_iff {n : Name} {m : Multidegree} :
    t.entry n = .ok m ↔ t.target.below[n]? = some m := by
  rw [entry, t.entries_eq, List.getElem?_toArray]
  cases t.target.below[n]? <;> simp

theorem contains_iff {n : Name} : t.contains n = true ↔ ∃ m, t.entry n = .ok m := by
  simp only [entry_eq_ok_iff, contains, size, t.entries_eq, List.size_toArray,
    decide_eq_true_eq]
  exact ⟨fun h => ⟨_, List.getElem?_eq_getElem h⟩, fun ⟨_, h⟩ => (List.getElem?_eq_some_iff.1 h).1⟩

theorem le_of_entry {n : Name} {m : Multidegree} (h : t.entry n = .ok m) :
    m.le t.target = true :=
  mem_below.1 (List.mem_of_getElem? (entry_eq_ok_iff.1 h))

theorem generators_of_entry {n : Name} {m : Multidegree} (h : t.entry n = .ok m) :
    m.generators = t.target.generators :=
  (le_iff.1 (le_of_entry h)).1

theorem count_of_entry {n : Name} {m : Multidegree} (h : t.entry n = .ok m) :
    t.count n = m.count := by
  funext g
  rw [count, h]

theorem degree_of_entry {n : Name} {m : Multidegree} (h : t.entry n = .ok m) :
    t.degree n = .ok m.degree := by
  rw [degree, t.degrees_eq, List.getElem?_toArray, List.getElem?_map, entry_eq_ok_iff.1 h]
  rfl

theorem degreeOf_of_entry {n : Name} {m : Multidegree} (h : t.entry n = .ok m) :
    t.degreeOf n = m.degree := by
  rw [degreeOf, count_of_entry h, degree_eq_sum (generators_of_entry h).le]

theorem degree_eq {n : Name} (h : t.contains n = true) : t.degree n = .ok (t.degreeOf n) := by
  obtain ⟨m, hm⟩ := contains_iff.1 h
  rw [degree_of_entry hm, degreeOf_of_entry hm]

theorem degree_eq_ok_iff {n : Name} {d : Nat} :
    t.degree n = .ok d ↔ t.contains n = true ∧ t.degreeOf n = d := by
  constructor
  · intro h
    have hn : t.contains n = true := by
      rw [degree, t.degrees_eq, List.getElem?_toArray, List.getElem?_map] at h
      cases he : t.target.below[n]? with
      | none =>
        rw [he] at h
        cases h
      | some m => exact contains_iff.2 ⟨m, entry_eq_ok_iff.2 he⟩
    exact ⟨hn, Except.ok.inj ((degree_eq hn).symm.trans h)⟩
  · rintro ⟨hn, rfl⟩
    exact degree_eq hn

/-- A generator beyond the last one does not occur. -/
theorem count_of_generators_le {n : Name} {g : Nat} (h : t.target.generators ≤ g) :
    t.count n g = 0 := by
  unfold count
  split
  · rename_i m hm
    exact Multidegree.count_of_generators_le (generators_of_entry hm ▸ h)
  · rfl

theorem count_le_target (n : Name) (g : Nat) : t.count n g ≤ t.target.count g := by
  unfold count
  split
  · rename_i m hm
    exact (le_iff.1 (le_of_entry hm)).2 g
  · exact Nat.zero_le _

/-! ## Names of multidegrees -/

theorem name?_eq_some_iff {n : Name} {m : Multidegree} :
    t.name? m = some n ↔ t.entry n = .ok m := by
  have hd : t.target.below.zipIdx.Pairwise fun a b => (a.1 == b.1) = false := by
    have : (t.target.below.zipIdx.map (·.1)).Pairwise (· ≠ ·) := by
      rw [List.zipIdx_map_fst]
      exact nodup_below _
    exact (List.pairwise_map.1 this).imp fun h => by simpa using h
  rw [entry_eq_ok_iff, name?, t.places_eq]
  refine ⟨fun h => ?_, fun h => ?_⟩
  · have hm : m ∈ t.target.below := by
      apply Classical.byContradiction
      intro hm
      rw [Std.HashMap.getElem?_ofList_of_contains_eq_false] at h
      · cases h
      · rw [List.zipIdx_map_fst]
        simpa using hm
    obtain ⟨k, hk⟩ := List.getElem?_of_mem hm
    rw [Std.HashMap.getElem?_ofList_of_mem (beq_self_eq_true m) hd
      (List.mk_mem_zipIdx_iff_getElem?.2 hk)] at h
    cases h
    exact hk
  · exact Std.HashMap.getElem?_ofList_of_mem (beq_self_eq_true m) hd
      (List.mk_mem_zipIdx_iff_getElem?.2 h)

theorem exists_name?_of_le {m : Multidegree} (h : m.le t.target = true) :
    ∃ n, t.name? m = some n := by
  obtain ⟨n, hn⟩ := List.getElem?_of_mem (mem_below.2 h)
  exact ⟨n, name?_eq_some_iff.2 (entry_eq_ok_iff.2 hn)⟩

theorem eq_of_entry {a b : Name} {m : Multidegree} (ha : t.entry a = .ok m)
    (hb : t.entry b = .ok m) : a = b :=
  Option.some_inj.1 ((name?_eq_some_iff.2 ha).symm.trans (name?_eq_some_iff.2 hb))

/-- A name is determined by its multiplicities. -/
theorem eq_of_count {a b : Name} (ha : t.contains a = true) (hb : t.contains b = true)
    (h : t.count a = t.count b) : a = b := by
  obtain ⟨x, hx⟩ := contains_iff.1 ha
  obtain ⟨y, hy⟩ := contains_iff.1 hb
  rw [count_of_entry hx, count_of_entry hy] at h
  obtain rfl := Multidegree.eq_of_count
    ((generators_of_entry hx).trans (generators_of_entry hy).symm) h
  exact eq_of_entry hx hy

/-- Multiplicities that are at most those of the target have a name. -/
theorem exists_name {c : Nat → Nat} (h : ∀ g, c g ≤ t.target.count g) :
    ∃ n, t.contains n = true ∧ t.count n = c := by
  obtain ⟨m, hg, rfl⟩ := exists_count_eq h
  obtain ⟨n, hn⟩ := exists_name?_of_le (le_iff.2 ⟨hg, h⟩)
  have he := name?_eq_some_iff.1 hn
  exact ⟨n, contains_iff.2 ⟨m, he⟩, count_of_entry he⟩

/-! ## Arithmetic -/

theorem add_eq_name? {a b : Name} {x y : Multidegree} (ha : t.entry a = .ok x)
    (hb : t.entry b = .ok y) : t.add a b = .ok ((x.add? y).bind t.name?) := by
  rw [add, ha, hb]
  rfl

theorem subtract_eq_name? {a b : Name} {x y : Multidegree} (ha : t.entry a = .ok x)
    (hb : t.entry b = .ok y) : t.subtract a b = .ok ((x.sub? y).bind t.name?) := by
  rw [subtract, ha, hb]
  rfl

/-- Names are added by their entries. -/
theorem add_of_entry {a b c : Name} {x y z : Multidegree} (ha : t.entry a = .ok x)
    (hb : t.entry b = .ok y) (hc : t.entry c = .ok z) (h : x.add? y = some z) :
    t.add a b = .ok (some c) := by
  rw [add_eq_name? ha hb, h, Option.bind_some, name?_eq_some_iff.2 hc]

theorem add_eq_some_iff {a b c : Name} (ha : t.contains a = true) (hb : t.contains b = true) :
    t.add a b = .ok (some c) ↔ t.contains c = true ∧ t.count a + t.count b = t.count c := by
  obtain ⟨x, hx⟩ := contains_iff.1 ha
  obtain ⟨y, hy⟩ := contains_iff.1 hb
  have hg : x.generators = y.generators :=
    (generators_of_entry hx).trans (generators_of_entry hy).symm
  rw [add_eq_name? hx hy, count_of_entry hx, count_of_entry hy]
  simp only [Except.ok.injEq, Option.bind_eq_some_iff, add?_eq_some_iff hg]
  refine ⟨fun hm => ?_, fun hm => ?_⟩
  · obtain ⟨z, ⟨-, hz⟩, hn⟩ := hm
    have he := name?_eq_some_iff.1 hn
    exact ⟨contains_iff.2 ⟨z, he⟩, by rw [count_of_entry he, hz]⟩
  · obtain ⟨hc, h⟩ := hm
    obtain ⟨z, hz⟩ := contains_iff.1 hc
    rw [count_of_entry hz] at h
    exact ⟨z, ⟨(generators_of_entry hz).trans (generators_of_entry hx).symm, h.symm⟩,
      name?_eq_some_iff.2 hz⟩

theorem subtract_eq_some_iff {a b c : Name} (ha : t.contains a = true)
    (hb : t.contains b = true) :
    t.subtract a b = .ok (some c) ↔ t.contains c = true ∧ t.count b + t.count c = t.count a := by
  obtain ⟨x, hx⟩ := contains_iff.1 ha
  obtain ⟨y, hy⟩ := contains_iff.1 hb
  have hg : x.generators = y.generators :=
    (generators_of_entry hx).trans (generators_of_entry hy).symm
  rw [subtract_eq_name? hx hy, count_of_entry hx, count_of_entry hy]
  simp only [Except.ok.injEq, Option.bind_eq_some_iff, sub?_eq_some_iff hg]
  refine ⟨fun hm => ?_, fun hm => ?_⟩
  · obtain ⟨z, ⟨-, hz⟩, hn⟩ := hm
    have he := name?_eq_some_iff.1 hn
    exact ⟨contains_iff.2 ⟨z, he⟩, by rw [count_of_entry he, hz]⟩
  · obtain ⟨hc, h⟩ := hm
    obtain ⟨z, hz⟩ := contains_iff.1 hc
    rw [count_of_entry hz] at h
    exact ⟨z, ⟨(generators_of_entry hz).trans (generators_of_entry hx).symm, h⟩,
      name?_eq_some_iff.2 hz⟩

/-- Names can always be added, though there may be no result. -/
theorem add_eq_ok {a b : Name} (ha : t.contains a = true) (hb : t.contains b = true) :
    ∃ c, t.add a b = .ok c := by
  obtain ⟨x, hx⟩ := contains_iff.1 ha
  obtain ⟨y, hy⟩ := contains_iff.1 hb
  exact ⟨_, add_eq_name? hx hy⟩

/-- Names can always be subtracted, though there may be no result. -/
theorem subtract_eq_ok {a b : Name} (ha : t.contains a = true) (hb : t.contains b = true) :
    ∃ c, t.subtract a b = .ok c := by
  obtain ⟨x, hx⟩ := contains_iff.1 ha
  obtain ⟨y, hy⟩ := contains_iff.1 hb
  exact ⟨_, subtract_eq_name? hx hy⟩

/-! ## Names and degrees -/

theorem length_levels : t.target.levels.length = t.target.degree + 1 := by simp [levels]

/-- Where the block of a degree stands. -/
theorem degreeOf_of_range {d f p : Nat} (h : t.ranges[d]? = some (f, p)) {n : Name}
    (hn : t.contains n = true) : (f ≤ n ↔ d ≤ t.degreeOf n) ∧ (n < p ↔ t.degreeOf n ≤ d) := by
  obtain ⟨m, hm⟩ := contains_iff.1 hn
  rw [t.ranges_eq, List.getElem?_toArray] at h
  have hl : ∀ i l, t.target.levels[i]? = some l → ∀ m ∈ l, m.degree = 0 + i := by
    intro i l hl m hm
    simp only [levels, List.getElem?_map, Option.map_eq_some_iff] at hl
    obtain ⟨e, he, rfl⟩ := hl
    obtain ⟨xs, hxs, rfl⟩ := List.mem_map.1 hm
    obtain rfl : e = i := by
      obtain ⟨hi, he⟩ := List.getElem?_eq_some_iff.1 he
      simpa using he.symm
    rw [Nat.zero_add]
    exact (mem_withSum.1 hxs).2
  have := degree_of_blocksFrom hl (entry_eq_ok_iff.1 hm) h
  rw [degreeOf_of_entry hm]
  simpa only [Nat.zero_add] using this

theorem exists_range {d : Nat} (h : d ≤ t.target.degree) :
    ∃ f p, t.ranges[d]? = some (f, p) ∧ p ≤ t.size := by
  have hlen : d < t.target.blocks.length := by
    rw [blocks, length_blocksFrom, List.length_map, length_levels]
    omega
  obtain ⟨⟨f, p⟩, hd⟩ : ∃ x, t.target.blocks[d]? = some x := ⟨_, List.getElem?_eq_getElem hlen⟩
  refine ⟨f, p, ?_, ?_⟩
  · rw [t.ranges_eq, List.getElem?_toArray, hd]
  · rw [size, t.entries_eq, List.size_toArray, below, List.length_flatten, ← total_eq_sum]
    simpa only [Nat.zero_add] using (bounds_of_blocksFrom hd).2.2

theorem degreeOf_le_target (n : Name) : t.degreeOf n ≤ t.target.degree := by
  rw [degree_eq_sum (Nat.le_refl _)]
  exact Finset.sum_le_sum fun g _ => count_le_target n g

/-- A name that comes later does not have a smaller degree. -/
theorem degreeOf_mono {a b : Name} (ha : t.contains a = true) (hb : t.contains b = true)
    (h : a ≤ b) : t.degreeOf a ≤ t.degreeOf b := by
  obtain ⟨f, p, hr, -⟩ := exists_range (degreeOf_le_target (t := t) a)
  exact (degreeOf_of_range hr hb).1.1
    (Nat.le_trans ((degreeOf_of_range hr ha).1.2 (Nat.le_refl _)) h)

/-- The names from the first one of degree `least` to the last one of degree `most`. -/
theorem span_spec {least most : Nat} (hl : least ≤ t.target.degree) (hm : most ≤ t.target.degree) :
    (t.span least most).2 ≤ t.size ∧ ∀ n, t.contains n = true →
      ((t.span least most).1 ≤ n ↔ least ≤ t.degreeOf n) ∧
        (n < (t.span least most).2 ↔ t.degreeOf n ≤ most) := by
  obtain ⟨f, p, hfp, -⟩ := exists_range hl
  obtain ⟨f', p', hfp', hsize⟩ := exists_range hm
  rw [span, hfp, hfp']
  exact ⟨hsize, fun n hn => ⟨(degreeOf_of_range hfp hn).1, (degreeOf_of_range hfp' hn).2⟩⟩

/-! ## Names below a name -/

theorem le_eq_ok_true_iff {a b : Name} (ha : t.contains a = true) (hb : t.contains b = true) :
    t.le a b = .ok true ↔ t.count a ≤ t.count b := by
  obtain ⟨x, hx⟩ := contains_iff.1 ha
  obtain ⟨y, hy⟩ := contains_iff.1 hb
  have hg : x.generators = y.generators :=
    (generators_of_entry hx).trans (generators_of_entry hy).symm
  have hle : t.le a b = .ok (x.le y) := by
    rw [le, hx, hy]
    rfl
  rw [hle, count_of_entry hx, count_of_entry hy, Except.ok.injEq, Multidegree.le_iff]
  exact and_iff_right hg

/-- A name that is below another one has a smaller degree. -/
theorem degreeOf_lt {a b : Name} (h : t.count a < t.count b) : t.degreeOf a < t.degreeOf b := by
  obtain ⟨hle, g, hg⟩ := Pi.lt_def.1 h
  refine Finset.sum_lt_sum (fun g _ => hle g) ⟨g, ?_, hg⟩
  rw [Finset.mem_range]
  by_contra hge
  rw [count_of_generators_le (n := b) (Nat.not_lt.1 hge)] at hg
  exact Nat.not_lt_zero _ hg

/-- Degrees add up. -/
theorem degreeOf_add {a b c : Name} (h : t.count a + t.count b = t.count c) :
    t.degreeOf a + t.degreeOf b = t.degreeOf c := by
  simp only [degreeOf, ← h, Pi.add_apply, Finset.sum_add_distrib]

/-! ## The names of one degree -/

theorem ranges_eq_none {d : Nat} (h : t.target.degree < d) : t.ranges[d]? = none := by
  rw [t.ranges_eq, List.getElem?_toArray, List.getElem?_eq_none_iff, blocks, length_blocksFrom,
    List.length_map, length_levels]
  omega

theorem mem_ofDegree {d : Nat} {n : Name} :
    n ∈ t.ofDegree d ↔ t.contains n = true ∧ t.degreeOf n = d := by
  by_cases hd : d ≤ t.target.degree
  · obtain ⟨f, p, hr, hp⟩ := exists_range hd
    simp only [ofDegree, hr, mem_range'_sub]
    refine ⟨fun h => ?_, fun h => ?_⟩
    · have hn : t.contains n = true := decide_eq_true (h.2.trans_le hp)
      obtain ⟨hf, hp⟩ := degreeOf_of_range hr hn
      exact ⟨hn, le_antisymm (hp.1 h.2) (hf.1 h.1)⟩
    · obtain ⟨hf, hp⟩ := degreeOf_of_range hr h.1
      exact ⟨hf.2 h.2.ge, hp.2 h.2.le⟩
  · simp only [ofDegree, ranges_eq_none (Nat.not_le.1 hd), List.not_mem_nil, false_iff]
    exact fun h => hd (h.2 ▸ degreeOf_le_target n)

theorem nodup_ofDegree (d : Nat) : (t.ofDegree d).Nodup := by
  unfold ofDegree
  split
  · exact List.nodup_range'
  · exact List.nodup_nil

/-! ## Names of degree one -/

theorem single_le {c : Nat → Nat} {g : Nat} (h : 0 < c g) : Pi.single g 1 ≤ c := by
  intro g'
  by_cases hg : g' = g
  · subst hg
    rw [Pi.single_eq_same]
    exact h
  · rw [Pi.single_eq_of_ne hg]
    exact Nat.zero_le _

/-- The name of a generator that the target has. -/
theorem exists_generator {g : Nat} (h : 0 < t.target.count g) :
    ∃ n, t.contains n = true ∧ t.count n = Pi.single g 1 :=
  exists_name (single_le h)

theorem degreeOf_generator {g : Nat} (h : 0 < t.target.count g) {n : Name}
    (hn : t.count n = Pi.single g 1) : t.degreeOf n = 1 := by
  have hg : g ∈ Finset.range t.target.generators := by
    rw [Finset.mem_range]
    by_contra hle
    rw [Multidegree.count_of_generators_le (Nat.not_lt.1 hle)] at h
    exact Nat.lt_irrefl 0 h
  simp only [degreeOf, hn, Pi.single_apply, Finset.sum_ite_eq', if_pos hg]

/-- A generator can be taken from a name of positive degree. -/
theorem exists_count_pos {n : Name} (h : 0 < t.degreeOf n) : ∃ g, 0 < t.count n g := by
  obtain ⟨g, -, hg⟩ := Finset.exists_ne_zero_of_sum_ne_zero h.ne'
  exact ⟨g, Nat.pos_of_ne_zero hg⟩

/-- A name of positive degree is the sum of one of degree one and another name. -/
theorem exists_add_of_degreeOf_pos {k : Name} (h : 0 < t.degreeOf k) :
    ∃ m n, t.contains m = true ∧ t.contains n = true ∧ t.degreeOf m = 1 ∧
      t.count m + t.count n = t.count k := by
  obtain ⟨g, hg⟩ := exists_count_pos h
  have htarget := hg.trans_le (count_le_target k g)
  obtain ⟨m, hm, hcount⟩ := exists_generator htarget
  obtain ⟨n, hn, hrest⟩ := exists_name (c := t.count k - t.count m) fun g' =>
    (Nat.sub_le _ _).trans (count_le_target k g')
  refine ⟨m, n, hm, hn, degreeOf_generator htarget hcount, ?_⟩
  have hle : t.count m ≤ t.count k := hcount ▸ single_le hg
  funext g'
  rw [hrest]
  exact Nat.add_sub_of_le (hle g')

/-- There are as many names before a name as its degree says, one of each smaller degree. -/
theorem degreeOf_le {n : Name} (h : t.contains n = true) : t.degreeOf n ≤ n := by
  induction n using Nat.strongRecOn with
  | ind n ih =>
    rcases Nat.eq_zero_or_pos (t.degreeOf n) with hzero | hpos
    · rw [hzero]
      exact Nat.zero_le n
    · obtain ⟨m, k, hm, hk, hone, hadd⟩ := exists_add_of_degreeOf_pos hpos
      have hdegree := degreeOf_add hadd
      have hlt : k < n := by
        by_contra hge
        have := degreeOf_mono h hk (Nat.not_lt.1 hge)
        omega
      calc t.degreeOf n = 1 + t.degreeOf k := by rw [← hdegree, hone]
        _ ≤ 1 + k := Nat.add_le_add_left (ih k hlt hk) 1
        _ ≤ n := by
          rw [Nat.add_comm]
          exact hlt

/-- The names of degree one are those of the generators. -/
theorem exists_of_degreeOf_eq_one {n : Name} (h : t.degreeOf n = 1) :
    ∃ g, 0 < t.target.count g ∧ t.count n = Pi.single g 1 := by
  obtain ⟨g, hg⟩ := exists_count_pos (h ▸ Nat.one_pos)
  have htarget := hg.trans_le (count_le_target n g)
  obtain ⟨m, -, hm⟩ := exists_generator htarget
  refine ⟨g, htarget, ?_⟩
  by_contra hne
  have hlt : t.count m < t.count n := by
    rw [hm]
    exact lt_of_le_of_ne (single_le hg) (Ne.symm hne)
  exact (degreeOf_lt hlt).ne (by rw [h, degreeOf_generator htarget hm])

end Nonassoc.Multidegree.Table
