import Mathlib.Algebra.Order.BigOperators.Group.List
import Mathlib.Algebra.Order.Pi
import Mathlib.Data.List.GetD
import Nonassoc.Proofs.Partitions
import Nonassoc.Proofs.Splits
import Nonassoc.Proofs.Substitutions

/-!
# The slot tables of a target

The searches for splits, partitions and substitutions are taken one inside the other. `reached`
lists the substitutions that they come to, which are the *slot tables* (`IsSlotTable`): tables of
basis elements of positive degree, as many for each variable as it has occurrences, whose names do
not increase along a row and whose multidegrees add up to the target. Each slot table is reached,
once (`mem_reached`, `nodup_reached`).
-/

namespace Nonassoc.Search

open Multidegree (Name Table)

theorem exists_slot {s : Substitution} {degrees : List Nat} (h : s.map List.length = degrees)
    {v k : Nat} (hk : k < degrees.getD v 0) : ∃ b, s.slot v k = .ok b := by
  subst h
  have hv := lt_length_of_lt_getD hk
  rw [List.getD_eq_getElem _ _ hv, List.getElem_map] at hk
  rw [List.length_map] at hv
  exact ⟨s[v][k], by simp [Substitution.slot, hv, hk]⟩

/-- A slot that a substitution has is one of the cells of its rows. -/
theorem mem_of_slot {s : Substitution} {v k : Nat} {b : BasisId} (h : s.slot v k = .ok b) :
    ∃ row ∈ s, b ∈ row := by
  unfold Substitution.slot at h
  split at h
  · rename_i b' hb
    cases h
    obtain ⟨row, hrow, hk⟩ := Option.bind_eq_some_iff.1 hb
    exact ⟨row, List.mem_of_getElem? hrow, List.mem_of_getElem? hk⟩
  · cases h

/-- What a substitution puts into the slots, where a basis element stands for a value. -/
def Substitution.family {V : Type} [Zero V] (value : BasisId → V) (s : Substitution) :
    Nat × Nat → V := fun q =>
  match s.slot q.1 q.2 with
  | .ok b => value b
  | .error _ => 0

theorem Substitution.family_of_slot {V : Type} [Zero V] {value : BasisId → V} {s : Substitution}
    {v k : Nat} {b : BasisId} (h : s.slot v k = .ok b) : s.family value (v, k) = value b := by
  rw [family, h]

/-- Takes the splits of a target, the partitions of each and the substitutions of each of these. -/
def forEachSubstitution {σ : Type} (t : Table) (b : Basis) (target : Name) (degrees : List Nat)
    (visitor : Substitution → Token → σ → Walk.Run σ) : Token → σ → Walk.Run σ :=
  (splits t target degrees).forEach fun split =>
    (partitions t split degrees).forEach fun p => (substitutions b p).forEach visitor

/-- The substitutions in the order of the searches. -/
def reached (t : Table) (b : Basis) (target : Name) (degrees : List Nat) : List Substitution :=
  (splits t target degrees).toList.flatMap fun split =>
    (partitions t split degrees).toList.flatMap fun p => (substitutions b p).toList

/-- Basis elements of positive degree for the occurrences of each variable, with the target as the
sum of their multidegrees. -/
structure IsAssignment (t : Table) (b : Basis) (target : Name) (degrees : List Nat)
    (s : Substitution) : Prop where
  lengths : s.map List.length = degrees
  cells : ∀ row ∈ s, ∀ x ∈ row, b.contains x = true ∧ 0 < t.degreeOf (b.nameAt x)
  sum : (s.map fun row => (row.map fun x => t.count (b.nameAt x)).sum).sum = t.count target

/-- An assignment in which the names of a variable's elements do not increase. -/
structure IsSlotTable (t : Table) (b : Basis) (target : Name) (degrees : List Nat)
    (s : Substitution) : Prop extends IsAssignment t b target degrees s where
  descending : ∀ row ∈ s, (row.map b.nameAt).Pairwise (· ≥ ·)

/-- The multidegrees of all elements add up to the target. -/
theorem IsAssignment.sum_flatten {t : Table} {b : Basis} {target : Name} {degrees : List Nat}
    {s : Substitution} (h : IsAssignment t b target degrees s) :
    (s.flatten.map fun x => t.count (b.nameAt x)).sum = t.count target := by
  rw [← h.sum, List.map_flatten, List.sum_flatten, List.map_map]
  rfl

/-- If there are several slots, then all elements are of smaller degree than the target. -/
theorem IsAssignment.degreeOf_lt {t : Table} {b : Basis} {target : Name} {degrees : List Nat}
    {s : Substitution} (h : IsAssignment t b target degrees s) (hd : 2 ≤ degrees.sum) {x : BasisId}
    (hx : x ∈ s.flatten) : t.degreeOf (b.nameAt x) < t.degreeOf target := by
  obtain ⟨y, rest, hrest⟩ : ∃ y rest, s.flatten.erase x = y :: rest := by
    refine List.exists_cons_of_length_pos ?_
    rw [List.length_erase_of_mem hx, List.length_flatten, h.lengths]
    omega
  have hperm := hrest ▸ List.perm_cons_erase hx
  obtain ⟨row, hrow, hy⟩ := List.mem_flatten.1 (hperm.mem_iff.2 (by simp : y ∈ x :: y :: rest))
  have hpos : 0 < t.count (b.nameAt y) := by
    refine pos_iff_ne_zero.2 fun hzero => ?_
    have hdegree := (h.cells row hrow y hy).2
    simp [Table.degreeOf, hzero] at hdegree
  have hsum := (hperm.map fun x => t.count (b.nameAt x)).sum_eq
  rw [h.sum_flatten, List.map_cons, List.map_cons, List.sum_cons, List.sum_cons] at hsum
  exact Table.degreeOf_lt
    (hsum ▸ lt_add_of_pos_right _ (hpos.trans_le (self_le_add_right _ _)))

/-- A slot table for one variable can have the same element everywhere. -/
theorem isSlotTable_replicate {t : Table} {b : Basis} {target n : Name} {x : BasisId} {d : Nat}
    (hx : b.nameOf x = .ok n) (hpos : 0 < t.degreeOf n) (hsum : d • t.count n = t.count target) :
    IsSlotTable t b target [d] [List.replicate d x] := by
  obtain ⟨hcontains, rfl⟩ := Basis.nameOf_eq_ok_iff_nameAt.1 hx
  refine ⟨⟨by simp, fun row hrow y hy => ?_, by simpa using hsum⟩, fun row hrow => ?_⟩
  · obtain rfl := List.mem_singleton.1 hrow
    obtain rfl := List.eq_of_mem_replicate hy
    exact ⟨hcontains, hpos⟩
  · obtain rfl := List.mem_singleton.1 hrow
    rw [List.map_replicate]
    exact List.pairwise_replicate.2 (.inr le_rfl)

section
variable {t : Table} {b : Basis} {target : Name} {degrees : List Nat}
  (ht : t.contains target = true) (hd : degrees ≠ [])
include ht hd

/-! ## Splits with their partitions -/

omit hd in
/-- There is no split if there are more slots than the target's degree. -/
theorem sum_le_of_mem_splits {split : List Name} (hs : split ∈ (splits t target degrees).toList) :
    degrees.sum ≤ t.degreeOf target := by
  obtain ⟨-, -, hle, hsum⟩ := (mem_splits ht).1 hs
  exact hle.sum_le_sum.trans_eq (sum_degreeOf_eq hsum)

theorem splits_spec {split : List Name} (hs : split ∈ (splits t target degrees).toList) :
    split.length = degrees.length ∧ split ≠ [] ∧ ∀ n ∈ split, t.contains n = true := by
  obtain ⟨-, hn, hle, -⟩ := (mem_splits ht).1 hs
  have hlen : split.length = degrees.length := by simpa using hle.length_eq.symm
  refine ⟨hlen, ?_, hn⟩
  rintro rfl
  exact hd (List.length_eq_zero_iff.1 hlen.symm)

/-- A partition belongs to some split if its parts have positive degree, do not increase for any
variable, and add up to the target. -/
theorem exists_split_iff (hpos : ∀ d ∈ degrees, 1 ≤ d) {p : Partition} :
    (∃ split ∈ (splits t target degrees).toList, p ∈ (partitions t split degrees).toList) ↔
      p.map List.length = degrees ∧
        (∀ parts ∈ p, (∀ n ∈ parts, t.contains n = true ∧ 0 < t.degreeOf n) ∧
          parts.Pairwise (· ≥ ·)) ∧
        (p.map fun parts => (parts.map t.count).sum).sum = t.count target := by
  refine ⟨fun hm => ?_, fun hm => ?_⟩
  · obtain ⟨split, hsplit, hp⟩ := hm
    obtain ⟨hlen, hne, hn⟩ := splits_spec ht hd hsplit
    obtain ⟨-, -, -, hsum⟩ := (mem_splits ht).1 hsplit
    have h := (mem_partitions hlen hne hn).1 hp
    have hlengths : p.map List.length = (split.zip degrees).map Prod.snd := by
      rw [← List.forall₂_eq_eq_eq, List.forall₂_map_left_iff, List.forall₂_map_right_iff]
      exact h.imp fun _ _ h => h.length
    have hsums : (p.map fun parts => (parts.map t.count).sum) =
        (split.zip degrees).map (t.count ∘ Prod.fst) := by
      rw [← List.forall₂_eq_eq_eq, List.forall₂_map_left_iff, List.forall₂_map_right_iff]
      exact h.imp fun _ _ h => h.sum
    refine ⟨?_, fun parts hparts => ?_, ?_⟩
    · rw [hlengths, List.map_snd_zip hlen.ge]
    · obtain ⟨i, hi, rfl⟩ := List.getElem_of_mem hparts
      have hi' := h.get hi (h.length_eq ▸ hi)
      exact ⟨hi'.names, hi'.descending⟩
    · rw [hsums, ← List.map_map, List.map_fst_zip hlen.le, hsum]
  · obtain ⟨hlengths, hparts, hsum⟩ := hm
    have hname : ∀ parts ∈ p, ∃ n, t.contains n = true ∧ t.count n = (parts.map t.count).sum := by
      intro parts hmem
      have hle : (parts.map t.count).sum ≤ (p.map fun parts => (parts.map t.count).sum).sum :=
        List.single_le_sum (fun _ _ _ => Nat.zero_le _) _ (List.mem_map.2 ⟨parts, hmem, rfl⟩)
      rw [hsum] at hle
      exact Table.exists_name fun g => (hle g).trans (Table.count_le_target target g)
    choose! name hcont hcount using hname
    have hdegrees : ∀ parts ∈ p, parts.length ≤ t.degreeOf (name parts) := by
      intro parts hmem
      rw [← sum_degreeOf_eq (hcount parts hmem).symm]
      exact length_le_sum_degreeOf fun n hn => ((hparts parts hmem).1 n hn).2
    have hlen : (p.map name).length = degrees.length := by rw [← hlengths]; simp
    have hcont' : ∀ n ∈ p.map name, t.contains n = true := by
      simpa using hcont
    have hne : p.map name ≠ [] := by
      intro h
      rw [h] at hlen
      exact hd (List.length_eq_zero_iff.1 hlen.symm)
    refine ⟨p.map name, (mem_splits ht).2 ⟨hd, hcont', ?_, ?_⟩,
      (mem_partitions hlen hne hcont').2 ?_⟩
    · rw [← hlengths, List.map_map, List.forall₂_map_left_iff, List.forall₂_map_right_iff]
      exact List.forall₂_same.2 hdegrees
    · rw [← hsum, List.map_map]
      exact congrArg List.sum (List.map_congr_left hcount)
    · rw [← hlengths, List.zip_map', List.forall₂_map_right_iff]
      refine List.forall₂_same.2 fun parts hmem => ⟨?_, rfl, (hparts parts hmem).1,
        (hparts parts hmem).2, (hcount parts hmem).symm⟩
      exact hpos _ (hlengths ▸ List.mem_map.2 ⟨parts, hmem, rfl⟩)

/-- The split of a partition is determined by it. -/
theorem split_unique {split split' : List Name} (hs : split ∈ (splits t target degrees).toList)
    (hs' : split' ∈ (splits t target degrees).toList) {p : Partition}
    (hp : p ∈ (partitions t split degrees).toList)
    (hp' : p ∈ (partitions t split' degrees).toList) : split = split' := by
  obtain ⟨hlen, hne, hn⟩ := splits_spec ht hd hs
  obtain ⟨hlen', hne', hn'⟩ := splits_spec ht hd hs'
  have h := (mem_partitions hlen hne hn).1 hp
  have h' := (mem_partitions hlen' hne' hn').1 hp'
  apply List.ext_getElem (hlen.trans hlen'.symm)
  intro i hi hi'
  have hid : i < degrees.length := hlen ▸ hi
  have hip : i < p.length := by
    rw [h.length_eq, List.length_zip]
    exact lt_min hi hid
  have hsum := (h.get hip (h.length_eq ▸ hip)).sum
  have hsum' := (h'.get hip (h'.length_eq ▸ hip)).sum
  simp only [List.get_eq_getElem, List.getElem_zip] at hsum hsum'
  exact Table.eq_of_count (hn _ (List.getElem_mem hi)) (hn' _ (List.getElem_mem hi'))
    (hsum.symm.trans hsum')

/-! ## Slot tables -/

theorem mem_reached (hb : b.Built t) (hpos : ∀ d ∈ degrees, 1 ≤ d) {s : Substitution} :
    s ∈ reached t b target degrees ↔ IsSlotTable t b target degrees s := by
  have hsplit := exists_split_iff ht hd hpos (p := namesOf b s)
  have hlengths : (namesOf b s).map List.length = s.map List.length := by
    simp [namesOf, Function.comp_def]
  have hsums : ((namesOf b s).map fun parts => (parts.map t.count).sum) =
      s.map fun row => (row.map fun x => t.count (b.nameAt x)).sum := by
    simp [namesOf, Function.comp_def]
  have hcells : ∀ {P : List Name → Prop},
      (∀ parts ∈ namesOf b s, P parts) ↔ ∀ row ∈ s, P (row.map b.nameAt) := by
    simp [namesOf]
  rw [hlengths, hsums, hcells] at hsplit
  simp only [reached, List.mem_flatMap, mem_substitutions hb]
  refine ⟨fun hm => ?_, fun h => ?_⟩
  · obtain ⟨split, hs, p, hp, hcont, rfl⟩ := hm
    obtain ⟨hl, hrows, hsum⟩ := hsplit.1 ⟨split, hs, hp⟩
    refine ⟨⟨hl, fun row hrow x hx => ⟨hcont row hrow x hx, ?_⟩, hsum⟩, fun row hrow => ?_⟩
    · exact ((hrows row hrow).1 _ (List.mem_map.2 ⟨x, hx, rfl⟩)).2
    · exact (hrows row hrow).2
  · have hnames : ∀ row ∈ s, ∀ n ∈ row.map b.nameAt, t.contains n = true ∧ 0 < t.degreeOf n := by
      intro row hrow n hn
      obtain ⟨x, hx, rfl⟩ := List.mem_map.1 hn
      obtain ⟨hc, hx⟩ := h.cells row hrow x hx
      exact ⟨hb.contains_nameAt hc, hx⟩
    obtain ⟨split, hs, hp⟩ := hsplit.2
      ⟨h.lengths, fun row hrow => ⟨hnames row hrow, h.descending row hrow⟩, h.sum⟩
    exact ⟨split, hs, _, hp, fun row hrow x hx => (h.cells row hrow x hx).1, rfl⟩

theorem nodup_reached (hb : b.Built t) : (reached t b target degrees).Nodup := by
  refine nodup_flatMap_of_inj (nodup_splits ht degrees) (fun split hs => ?_) ?_
  · obtain ⟨hlen, hne, hn⟩ := splits_spec ht hd hs
    refine nodup_flatMap_of_key (namesOf b) (nodup_partitions hlen hne hn)
      (fun p _ => nodup_substitutions p) fun p _ s hmem => ?_
    exact ((mem_substitutions hb).1 hmem).2.symm
  · intro split hs split' hs' s hmem hmem'
    obtain ⟨p, hp, hsub⟩ := List.mem_flatMap.1 hmem
    obtain ⟨p', hp', hsub'⟩ := List.mem_flatMap.1 hmem'
    obtain rfl := ((mem_substitutions hb).1 hsub).2
    obtain rfl := ((mem_substitutions hb).1 hsub').2
    exact split_unique ht hd hs hs' hp hp'

/-- With a token that grants every poll and a visitor that never fails, the searches come to the
end, and the visitor is given the substitutions that are reached, in order. -/
theorem forEachSubstitution_unlimited {σ : Type} {f : σ → Substitution → σ}
    {visitor : Substitution → Token → σ → Walk.Run σ}
    (hv : ∀ s st, visitor s .unlimited st = ⟨.ok (), .unlimited, f st s⟩) (st : σ) :
    forEachSubstitution t b target degrees visitor .unlimited st =
      ⟨.ok (), .unlimited, (reached t b target degrees).foldl f st⟩ := by
  have hsubst : ∀ p st, (substitutions b p).forEach visitor .unlimited st =
      ⟨.ok (), .unlimited, (substitutions b p).toList.foldl f st⟩ := fun p st =>
    Walk.forEach_unlimited (failure?_substitutions p) (fun s _ st => hv s st) st
  rw [forEachSubstitution,
    Walk.forEach_unlimited (failure?_splits ht degrees) fun split hs st => ?_, reached,
    List.foldl_flatMap]
  obtain ⟨hlen, hne, hn⟩ := splits_spec ht hd hs
  rw [Walk.forEach_unlimited (yields_partitions hlen hne hn).failure? fun p _ st => hsubst p st,
    List.foldl_flatMap]

end

/-- Searches that come to the end have given the visitor the substitutions that are reached, in
order. -/
theorem state_forEachSubstitution {t : Table} {b : Basis} {target : Name} {degrees : List Nat}
    {σ : Type} {f : σ → Substitution → σ} {visitor : Substitution → Token → σ → Walk.Run σ}
    (hv : ∀ s token st, (visitor s token st).result = .ok () → (visitor s token st).state = f st s)
    {token : Token} {st : σ}
    (h : (forEachSubstitution t b target degrees visitor token st).result = .ok ()) :
    (forEachSubstitution t b target degrees visitor token st).state =
      (reached t b target degrees).foldl f st := by
  rw [reached, List.foldl_flatMap]
  refine Walk.foldl_of_forEach (fun split token st hsplit => ?_) h
  rw [List.foldl_flatMap]
  refine Walk.foldl_of_forEach (fun p token st hp => ?_) hsplit
  exact Walk.foldl_of_forEach hv hp

/-- In an assignment, the elements of each variable can be reordered so that their names do not
increase. -/
theorem IsAssignment.exists_perm {t : Table} {b : Basis} {target : Name} {degrees : List Nat}
    {s : Substitution} (h : IsAssignment t b target degrees s) :
    ∃ s', IsSlotTable t b target degrees s' ∧ List.Forall₂ List.Perm s' s := by
  let sort : List BasisId → List BasisId := fun row =>
    row.mergeSort fun x y => decide (b.nameAt y ≤ b.nameAt x)
  have hperm : ∀ row, (sort row).Perm row := fun row => List.mergeSort_perm row _
  refine ⟨s.map sort, ⟨⟨?_, ?_, ?_⟩, ?_⟩, ?_⟩
  · rw [← h.lengths, List.map_map]
    exact List.map_congr_left fun row _ => (hperm row).length_eq
  · simp only [List.forall_mem_map]
    exact fun row hrow x hx => h.cells row hrow x ((hperm row).mem_iff.1 hx)
  · rw [← h.sum, List.map_map]
    refine congrArg List.sum (List.map_congr_left fun row _ => ?_)
    exact ((hperm row).map _).sum_eq
  · simp only [List.forall_mem_map, List.pairwise_map]
    intro row _
    refine (List.pairwise_mergeSort (fun x y z hxy hyz => ?_) (fun x y => ?_) row).imp fun hxy => ?_
    · exact decide_eq_true (le_trans (of_decide_eq_true hyz) (of_decide_eq_true hxy))
    · simpa using Nat.le_total _ _
    · exact of_decide_eq_true hxy
  · rw [List.forall₂_map_left_iff]
    exact List.forall₂_same.2 fun row _ => hperm row

/-- The three searches together: with a token that grants every poll and a visitor that never fails
they come to the end, and whenever they do, the visitor was given the slot tables, each of them
once. The slot tables contain every assignment up to the order inside its rows. -/
theorem forEachSubstitution_slotTables {t : Table} {b : Basis} {target : Name} {degrees : List Nat}
    (hb : b.Built t) (ht : t.contains target = true) (hd : degrees ≠ [])
    (hpos : ∀ d ∈ degrees, 1 ≤ d) :
    ∃ tables : List Substitution,
      (∀ {σ : Type} (f : σ → Substitution → σ) (visitor : Substitution → Token → σ → Walk.Run σ),
        (∀ s st, visitor s .unlimited st = ⟨.ok (), .unlimited, f st s⟩) → ∀ st,
          forEachSubstitution t b target degrees visitor .unlimited st =
            ⟨.ok (), .unlimited, tables.foldl f st⟩) ∧
      (∀ {σ : Type} (f : σ → Substitution → σ) (visitor : Substitution → Token → σ → Walk.Run σ),
        (∀ s token st, (visitor s token st).result = .ok () →
          (visitor s token st).state = f st s) → ∀ token st,
          (forEachSubstitution t b target degrees visitor token st).result = .ok () →
            (forEachSubstitution t b target degrees visitor token st).state =
              tables.foldl f st) ∧
      tables.Nodup ∧
      (∀ s, s ∈ tables ↔ IsSlotTable t b target degrees s) ∧
      ∀ s, IsAssignment t b target degrees s → ∃ s' ∈ tables, List.Forall₂ List.Perm s' s := by
  refine ⟨reached t b target degrees, fun f visitor hv => forEachSubstitution_unlimited ht hd hv,
    fun f visitor hv token st h => state_forEachSubstitution hv h, nodup_reached ht hd hb,
    fun s => mem_reached ht hd hb hpos, fun s hs => ?_⟩
  obtain ⟨s', hs', hperm⟩ := hs.exists_perm
  exact ⟨s', (mem_reached ht hd hb hpos).2 hs', hperm⟩

/-- One variable that occurs twice, at the square of a generator. -/
theorem forEachSubstitution_slotTables_square :
    ∃ t, Table.ofTarget ⟨[2]⟩ = .ok t ∧ t.contains 2 = true ∧
      ∃ tables : List Substitution, tables.Nodup ∧ ∀ s, s ∈ tables ↔
        IsSlotTable t ((Basis.empty t).pushAllGenerators t).2 2 [2] s := by
  have ht : ∃ t, Table.ofTarget ⟨[2]⟩ = .ok t ∧ t.contains 2 = true := ⟨_, rfl, by decide⟩
  obtain ⟨t, h, ht⟩ := ht
  obtain ⟨tables, -, -, hnodup, hmem, -⟩ := forEachSubstitution_slotTables
    Basis.Built.empty.pushAllGenerators ht (List.cons_ne_nil 2 []) (by decide)
  exact ⟨t, h, ht, tables, hnodup, hmem⟩

end Nonassoc.Search
