import Mathlib.Data.List.Sort
import Mathlib.Data.Prod.Lex
import Nonassoc.Proofs.Names
import Nonassoc.Proofs.Results

/-!
# The order of names

The list below a target is sorted by degree and then lexicographically (`sortedLT_below`), and has an
entry for every choice of multiplicities (`length_below`). `Table.Canonical` says what follows for
the table of a target: names and multidegrees below the target correspond, names are ordered as
their multidegrees are (`Table.lt_iff`), and the names of one degree are consecutive, whether they are
listed, filtered from all names, or met one after the other. Main result:
`Table.ofTarget_canonical`.
-/

namespace Nonassoc.Multidegree

/-- What names are sorted by: the degree, then the multiplicities lexicographically. -/
def key (m : Multidegree) : Nat ×ₗ List Nat := toLex (m.degree, m.components.map UInt8.toNat)

theorem key_lt_iff {a b : Multidegree} :
    a.key < b.key ↔ a.degree < b.degree ∨
      a.degree = b.degree ∧ a.components.map UInt8.toNat < b.components.map UInt8.toNat :=
  Prod.Lex.toLex_lt_toLex

/-! ## The sorted list -/

theorem toNat_of_mem_entryValues {bound : UInt8} {room d x : Nat}
    (h : x ∈ entryValues bound room d) : (UInt8.ofNat x).toNat = x := by
  have hx := (mem_entryValues.1 h).2.1
  have := bound.toNat_lt
  rw [UInt8.toNat_ofNat']
  omega

/-- Lists with the same sum come lexicographically. -/
theorem pairwise_withSum (bounds : List UInt8) (d : Nat) :
    (withSum (withRoom bounds) d).Pairwise fun xs ys =>
      xs.map UInt8.toNat < ys.map UInt8.toNat := by
  induction bounds generalizing d with
  | nil => cases d <;> simp [withRoom, withSum, withSumBefore]
  | cons b rest ih =>
    rw [withRoom_cons]
    cases d with
    | zero => simp [withSum_zero]
    | succ d =>
      rw [withSum_cons_succ, List.pairwise_flatMap]
      refine ⟨fun x _ => ?_, ?_⟩
      · -- the first entry is the same, so the others decide
        refine List.pairwise_map.2 ((ih _).imp fun hlt => ?_)
        rw [List.map_cons, List.map_cons, List.cons_lt_cons_iff]
        exact .inr ⟨rfl, hlt⟩
      · have hvalues : (entryValues b (total (rest.map UInt8.toNat)) (d + 1)).Pairwise (· < ·) :=
          List.pairwise_lt_range'
        refine hvalues.imp_of_mem fun {x x'} hx hx' hlt ys hys ys' hys' => ?_
        obtain ⟨zs, -, rfl⟩ := List.mem_map.1 hys
        obtain ⟨zs', -, rfl⟩ := List.mem_map.1 hys'
        rw [List.map_cons, List.map_cons, List.cons_lt_cons_iff, toNat_of_mem_entryValues hx,
          toNat_of_mem_entryValues hx']
        exact .inl hlt

theorem sortedLT_below (target : Multidegree) : (target.below.map key).SortedLT := by
  refine List.Pairwise.sortedLT (List.pairwise_map.2 ?_)
  have hdegree : ∀ {d : Nat} {m : Multidegree},
      m ∈ (withSum (withRoom target.components) d).map mk → m.degree = d := by
    intro d m hm
    obtain ⟨xs, hxs, rfl⟩ := List.mem_map.1 hm
    exact (mem_withSum.1 hxs).2
  rw [below_eq, List.pairwise_flatMap]
  refine ⟨fun d _ => ?_, ?_⟩
  · refine List.pairwise_map.2 ((pairwise_withSum _ d).imp_of_mem fun hxs hys hlt => ?_)
    refine key_lt_iff.2 (.inr ⟨?_, hlt⟩)
    rw [hdegree (List.mem_map_of_mem hxs), hdegree (List.mem_map_of_mem hys)]
  · refine List.pairwise_lt_range.imp fun hlt m hm m' hm' => key_lt_iff.2 (.inl ?_)
    rwa [hdegree hm, hdegree hm']

/-- The multiplicities that are at most a bound. -/
def upTo (bound : UInt8) : List UInt8 := (List.range (bound.toNat + 1)).map UInt8.ofNat

theorem mem_upTo {bound x : UInt8} : x ∈ upTo bound ↔ x ≤ bound := by
  have := bound.toNat_lt
  simp only [upTo, List.mem_map, List.mem_range, UInt8.le_iff_toNat_le]
  constructor
  · rintro ⟨n, hn, rfl⟩
    rw [UInt8.toNat_ofNat']
    omega
  · exact fun h => ⟨x.toNat, Nat.lt_succ_of_le h, UInt8.ofNat_toNat⟩

theorem nodup_upTo (bound : UInt8) : (upTo bound).Nodup := by
  refine List.Nodup.map_on (fun n hn n' hn' h => ?_) List.nodup_range
  have := bound.toNat_lt
  rw [List.mem_range] at hn hn'
  have h := congrArg UInt8.toNat h
  rw [UInt8.toNat_ofNat', UInt8.toNat_ofNat'] at h
  omega

/-- Every generator takes each multiplicity from zero to that of the target. -/
theorem length_below (target : Multidegree) :
    target.below.length = (target.components.map fun x => x.toNat + 1).prod := by
  have hperm : target.below.Perm ((choices (target.components.map upTo)).map mk) := by
    have hnodup : (choices (target.components.map upTo)).Nodup :=
      nodup_choices (List.forall_mem_map.2 fun x _ => nodup_upTo x)
    refine (List.perm_ext_iff_of_nodup (nodup_below target)
      (hnodup.map fun _ _ h => congrArg components h)).2 fun m => ?_
    rw [mem_below, le_iff_forall₂]
    simp only [List.mem_map, mem_choices_map, mem_upTo]
    exact ⟨fun h => ⟨_, h, rfl⟩, by rintro ⟨xs, hxs, rfl⟩; exact hxs⟩
  rw [hperm.length_eq, List.length_map, length_choices, List.map_map]
  refine congrArg List.prod (List.map_congr_left fun x _ => ?_)
  rw [Function.comp_apply, upTo, List.length_map, List.length_range]

namespace Table

variable {t : Table}

/-! ## Names in order -/

theorem size_eq : t.size = t.target.below.length := by
  rw [size, t.entries_eq, List.size_toArray]

/-- Names are ordered as their multidegrees are. -/
theorem lt_iff {a b : Name} {x y : Multidegree} (ha : t.entry a = .ok x) (hb : t.entry b = .ok y) :
    a < b ↔ x.key < y.key := by
  obtain ⟨hla, hxa⟩ := List.getElem?_eq_some_iff.1 (entry_eq_ok_iff.1 ha)
  obtain ⟨hlb, hyb⟩ := List.getElem?_eq_some_iff.1 (entry_eq_ok_iff.1 hb)
  have hla' : a < (t.target.below.map key).length := by rwa [List.length_map]
  have hlb' : b < (t.target.below.map key).length := by rwa [List.length_map]
  have hsorted : (t.target.below.map key)[a] < (t.target.below.map key)[b] ↔ a < b :=
    (sortedLT_below t.target).getElem_lt_getElem_iff
  rw [List.getElem_map, List.getElem_map, hxa, hyb] at hsorted
  exact hsorted.symm

/-- The last name is that of the target, since no other one has its degree. -/
theorem entry_targetName : t.entry t.targetName = .ok t.target := by
  have hle : t.target.le t.target = true := le_iff.2 ⟨rfl, fun _ => Nat.le_refl _⟩
  obtain ⟨n, hn⟩ := exists_name?_of_le hle
  have hentry := name?_eq_some_iff.1 hn
  have hcontains := contains_iff.2 ⟨_, hentry⟩
  have hlt : n < t.size := of_decide_eq_true hcontains
  have hlast : t.contains t.targetName = true := decide_eq_true (Nat.sub_one_lt_of_lt hlt)
  have hmono := degreeOf_mono hcontains hlast (Nat.le_sub_one_of_lt hlt)
  obtain rfl : t.targetName = n := by
    by_contra hne
    have hcount : t.count t.targetName < t.count n := by
      refine lt_of_le_of_ne ?_ fun h => hne (eq_of_count hlast hcontains h)
      rw [count_of_entry hentry]
      exact fun g => count_le_target t.targetName g
    exact absurd (degreeOf_lt hcount) (Nat.not_lt.2 hmono)
  exact hentry

/-! ## Names of one degree -/

theorem pairwise_ofDegree (d : Nat) : (t.ofDegree d).Pairwise (· < ·) := by
  unfold ofDegree
  split
  · exact List.pairwise_lt_range'
  · exact .nil

/-- Degree by degree, names ascend. -/
theorem pairwise_flatMap_ofDegree {degrees : List Nat} (h : degrees.Pairwise (· < ·)) :
    (degrees.flatMap t.ofDegree).Pairwise (· < ·) := by
  refine List.pairwise_flatMap.2 ⟨fun d _ => pairwise_ofDegree d, ?_⟩
  refine h.imp fun hlt a ha b hb => ?_
  obtain ⟨hca, rfl⟩ := mem_ofDegree.1 ha
  obtain ⟨hcb, rfl⟩ := mem_ofDegree.1 hb
  exact Nat.not_le.1 fun hle => absurd (degreeOf_mono hcb hca hle) (Nat.not_le.2 hlt)

theorem ofDegree_eq_filter (d : Nat) :
    t.ofDegree d = t.names.filter fun n => t.degree n = .ok d := by
  have hnames : t.names.Pairwise (· < ·) := List.pairwise_lt_range
  refine (pairwise_ofDegree d).sortedLT.eq_of_mem_iff (hnames.filter _).sortedLT fun n => ?_
  rw [mem_ofDegree, List.mem_filter, decide_eq_true_eq, degree_eq_ok_iff, names, List.mem_range,
    ← and_assoc, contains, decide_eq_true_eq, and_self]

/-- From a name on, the next one of the same degree again and again up to the last one. -/
inductive Walks (t : Table) : Option Name → List Name → Prop
  | done : Walks t none []
  | next {n : Name} {next : Option Name} {rest : List Name} :
      t.nextOfDegree? n = .ok next → Walks t next rest → Walks t (some n) (n :: rest)

/-- The name after one of degree `d` has this degree unless the block of the degree ends there. -/
theorem nextOfDegree?_eq {d first past : Nat} (hr : t.ranges[d]? = some (first, past))
    (hp : past ≤ t.size) {n : Nat} (hn : first ≤ n ∧ n < past) :
    t.nextOfDegree? n = .ok (if n + 1 < past then some (n + 1) else none) := by
  have hat : ∀ {m : Name}, m < t.size → t.degrees[m]? = some (t.degreeOf m) := by
    intro m hm
    have hdegree := degree_eq (t := t) (n := m) (decide_eq_true hm)
    unfold degree at hdegree
    split at hdegree
    · rename_i heq
      rw [heq, Except.ok.inj hdegree]
    · cases hdegree
  have hmem : ∀ m, t.contains m = true → (first ≤ m ∧ m < past ↔ t.degreeOf m = d) := by
    intro m hm
    obtain ⟨h1, h2⟩ := degreeOf_of_range hr hm
    rw [h1, h2, le_antisymm_iff, and_comm]
  have hlt : n < t.size := hn.2.trans_le hp
  have hd := (hmem n (decide_eq_true hlt)).1 hn
  unfold nextOfDegree?
  rw [hat hlt]
  by_cases hnext : n + 1 < t.size
  · have hd' := hmem (n + 1) (decide_eq_true hnext)
    rw [hat hnext]
    simp only [hd, ← hd']
    congr 2
    exact propext ⟨And.right, fun h => ⟨Nat.le_succ_of_le hn.1, h⟩⟩
  · have hnone : t.degrees[n + 1]? = none := by
      rw [t.degrees_eq, List.getElem?_toArray, List.getElem?_eq_none_iff, List.length_map,
        ← size_eq]
      exact Nat.not_lt.1 hnext
    rw [hnone, if_neg fun h => hnext (Nat.lt_of_lt_of_le h hp)]

theorem walks_from {d first past : Nat} (hr : t.ranges[d]? = some (first, past))
    (hp : past ≤ t.size) (k : Nat) {n : Nat} (hn : first ≤ n) (hk : past - n = k) :
    t.Walks (if n < past then some n else none) (List.range' n k) := by
  induction k generalizing n with
  | zero =>
    rw [if_neg (by omega)]
    exact .done
  | succ k ih =>
    have hlt : n < past := by omega
    rw [if_pos hlt, List.range'_succ]
    exact .next (nextOfDegree?_eq hr hp ⟨hn, hlt⟩) (ih (by omega) (by omega))

theorem walks_ofDegree (d : Nat) : t.Walks (t.firstOfDegree? d) (t.ofDegree d) := by
  unfold firstOfDegree? ofDegree
  by_cases hd : d ≤ t.target.degree
  · obtain ⟨first, past, hr, hp⟩ := exists_range (t := t) hd
    rw [hr]
    exact walks_from hr hp _ (Nat.le_refl _) rfl
  · rw [ranges_eq_none (Nat.not_le.1 hd)]
    exact .done

/-- One degree after the other, all names come in order. -/
theorem flatMap_ofDegree {k : Nat} (hk : t.target.degree < k) :
    (List.range k).flatMap t.ofDegree = t.names := by
  have hsorted := pairwise_flatMap_ofDegree (t := t) (List.pairwise_lt_range (n := k))
  have hnames : t.names.Pairwise (· < ·) := List.pairwise_lt_range
  refine hsorted.sortedLT.eq_of_mem_iff hnames.sortedLT fun n => ?_
  simp only [List.mem_flatMap, List.mem_range, mem_ofDegree, names]
  constructor
  · rintro ⟨d, -, hn, -⟩
    exact of_decide_eq_true hn
  · exact fun hn => ⟨_, (degreeOf_le_target n).trans_lt hk, decide_eq_true hn, rfl⟩

/-! ## The table of a target -/

/-- Names and multidegrees below the target correspond to each other, the names are ordered as the
multidegrees are, the last one is that of the target, and the names of one degree are those between
the first and the last of them. -/
structure Canonical (target : Multidegree) (t : Table) : Prop where
  names : ∀ n, n < t.size ↔ ∃ m, t.entry n = .ok m
  inverse : ∀ n m, t.entry n = .ok m ↔ t.name? m = some n
  named : ∀ m, (∃ n, t.name? m = some n) ↔ m.le target = true
  size : t.size = (target.components.map fun x => x.toNat + 1).prod
  order : ∀ a b x y, t.entry a = .ok x → t.entry b = .ok y → (a < b ↔ x.key < y.key)
  last : t.entry t.targetName = .ok target
  degree : ∀ n m, t.entry n = .ok m → t.degree n = .ok m.degree
  ofDegree : ∀ d, t.ofDegree d = t.names.filter fun n => t.degree n = .ok d
  walks : ∀ d, t.Walks (t.firstOfDegree? d) (t.ofDegree d)
  all : ∀ k, target.degree < k → (List.range k).flatMap t.ofDegree = t.names

theorem canonical (t : Table) : t.Canonical t.target where
  names _ := decide_eq_true_iff.symm.trans contains_iff
  inverse _ _ := name?_eq_some_iff.symm
  named _ := ⟨fun ⟨_, hn⟩ => le_of_entry (name?_eq_some_iff.1 hn), exists_name?_of_le⟩
  size := size_eq.trans (length_below _)
  order _ _ _ _ := lt_iff
  last := entry_targetName
  degree _ _ := degree_of_entry
  ofDegree := ofDegree_eq_filter
  walks := walks_ofDegree
  all _ := flatMap_ofDegree

/-- Every target with a generator has a table, and its names are canonical. -/
theorem ofTarget_canonical {target : Multidegree} (h : 0 < target.generators) :
    ∃ t, ofTarget target = .ok t ∧ t.Canonical target := by
  obtain ⟨t, ht, rfl⟩ : ∃ t, ofTarget target = .ok t ∧ t.target = target := by
    rw [ofTarget, dif_pos h]
    exact ⟨_, rfl, rfl⟩
  exact ⟨t, ht, t.canonical⟩

/-- Two generators, of which the first may occur twice: six names, the last one of degree three. -/
theorem ofTarget_canonical_two_one :
    0 < (⟨[2, 1]⟩ : Multidegree).generators ∧ ∃ t, ofTarget ⟨[2, 1]⟩ = .ok t ∧ t.size = 6 ∧
      t.name? ⟨[2, 1]⟩ = some t.targetName ∧ t.name? ⟨[0, 2]⟩ = none ∧
      (∀ m n, t.name? ⟨[0, 1]⟩ = some m → t.name? ⟨[1, 0]⟩ = some n → m < n) ∧
      (List.range 4).flatMap t.ofDegree = t.names := by
  have hpos : 0 < (⟨[2, 1]⟩ : Multidegree).generators := by decide
  obtain ⟨t, ht, hcanonical⟩ := ofTarget_canonical hpos
  refine ⟨hpos, t, ht, hcanonical.size, (hcanonical.inverse _ _).1 hcanonical.last, ?_,
    fun m n hm hn => ?_, hcanonical.all 4 (by decide)⟩
  · refine Option.eq_none_iff_forall_ne_some.2 fun n hn => ?_
    exact absurd ((hcanonical.named _).1 ⟨n, hn⟩) (by decide)
  · refine (hcanonical.order m n _ _ ((hcanonical.inverse _ _).2 hm)
      ((hcanonical.inverse _ _).2 hn)).2 ?_
    exact key_lt_iff.2 (by decide)

end Table

end Nonassoc.Multidegree
