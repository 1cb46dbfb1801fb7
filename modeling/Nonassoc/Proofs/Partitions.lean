import Mathlib.Algebra.BigOperators.Pi
import Mathlib.Data.List.Chain
import Nonassoc.Proofs.Names
import Nonassoc.Proofs.Walk
import Nonassoc.Search.Partition

/-!
# The partitions of a split

`Search.partitions` divides every variable's multidegree into parts of positive degree that do not
increase, in all ways and in each way once: `mem_partitions`, `nodup_partitions`. The ways come in the
lexicographic order of the names (`pairwise_partitionLists`).

`IsParts` says what the parts of one variable are. `partLists` is the search for them as a list;
that it misses nothing rests on the window for the first part: a largest part has at least the
average degree and leaves at least one for each of the others (`mem_firstParts`).

`partsWith` and `partsOfAllWith` are the searches with any choice of the bound that a part sets for
those after it. In the search for partitions that is the part itself (`partsOfAllWith_some`).
-/

namespace Nonassoc.Search

open Multidegree (Name Table)
open Walk (Yields)

variable {t : Table}

/-- The parts of one variable: as many as it has occurrences, of positive degree and not increasing,
with the variable's multidegree as their sum. -/
structure IsParts (t : Table) (n : Name) (count : Nat) (parts : List Name) : Prop where
  count_pos : 0 < count
  length : parts.length = count
  names : ∀ p ∈ parts, t.contains p = true ∧ 0 < t.degreeOf p
  descending : parts.Pairwise (· ≥ ·)
  sum : (parts.map t.count).sum = t.count n

theorem isDescending_iff {l : List Name} :
    Partition.isDescending l = true ↔ l.Pairwise (· ≥ ·) := by
  rw [← List.isChain_iff_pairwise]
  induction l with
  | nil => simp [Partition.isDescending]
  | cons a l ih =>
    cases l with
    | nil => simp [Partition.isDescending]
    | cons b l =>
      rw [Partition.isDescending, Bool.and_eq_true, decide_eq_true_eq, List.isChain_cons_cons, ih]

theorem sum_degreeOf (l : List Name) :
    (l.map t.degreeOf).sum =
      ∑ g ∈ Finset.range t.target.generators, (l.map t.count).sum g := by
  induction l with
  | nil => simp
  | cons n l ih =>
    simp only [List.map_cons, List.sum_cons, ih, Table.degreeOf, Pi.add_apply,
      Finset.sum_add_distrib]

theorem sum_degreeOf_eq {l : List Name} {n : Name} (h : (l.map t.count).sum = t.count n) :
    (l.map t.degreeOf).sum = t.degreeOf n := by
  rw [sum_degreeOf, h, Table.degreeOf]

theorem length_le_sum_degreeOf {l : List Name} (h : ∀ p ∈ l, 0 < t.degreeOf p) :
    l.length ≤ (l.map t.degreeOf).sum := by
  induction l with
  | nil => exact Nat.le_refl _
  | cons p l ih =>
    rw [List.forall_mem_cons] at h
    have := ih h.2
    simp only [List.length_cons, List.map_cons, List.sum_cons]
    omega

theorem sum_degreeOf_le {l : List Name} {d : Nat} (h : ∀ p ∈ l, t.degreeOf p ≤ d) :
    (l.map t.degreeOf).sum ≤ l.length * d := by
  induction l with
  | nil => exact Nat.zero_le _
  | cons p l ih =>
    rw [List.forall_mem_cons] at h
    have := ih h.2
    simp only [List.length_cons, List.map_cons, List.sum_cons, Nat.succ_mul]
    omega

namespace IsParts

variable {n part : Name} {count : Nat} {parts : List Name}

/-- Every part takes at least one of the degree. -/
theorem count_le (h : IsParts t n count parts) : count ≤ t.degreeOf n := by
  have hle := length_le_sum_degreeOf fun p hp => (h.names p hp).2
  rwa [sum_degreeOf_eq h.sum, h.length] at hle

/-- The first part has at least the average degree and leaves one for each of the others. -/
theorem window (h : IsParts t n count (part :: parts)) :
    t.degreeOf n ≤ count * t.degreeOf part ∧ t.degreeOf part + count ≤ t.degreeOf n + 1 := by
  obtain ⟨⟨hp, -⟩, hnames⟩ := List.forall_mem_cons.1 h.names
  have hle := (List.pairwise_cons.1 h.descending).1
  have hceil := sum_degreeOf_le fun p hp' =>
    Table.degreeOf_mono (hnames p hp').1 hp (hle p hp')
  have hroom := length_le_sum_degreeOf fun p hp' => (hnames p hp').2
  have hdeg := sum_degreeOf_eq h.sum
  rw [List.map_cons, List.sum_cons] at hdeg
  rw [← h.length, List.length_cons, Nat.succ_mul]
  omega

end IsParts

theorem isParts_one_iff {n : Name} (hn : t.contains n = true) {parts : List Name} :
    IsParts t n 1 parts ↔ parts = [n] ∧ 0 < t.degreeOf n := by
  refine ⟨fun h => ?_, fun hm => ?_⟩
  · obtain ⟨p, rfl⟩ := List.length_eq_one_iff.1 h.length
    obtain ⟨hp, hpos⟩ := h.names p List.mem_cons_self
    obtain rfl := Table.eq_of_count hp hn (by simpa using h.sum)
    exact ⟨rfl, hpos⟩
  · obtain ⟨rfl, hpos⟩ := hm
    refine ⟨Nat.one_pos, rfl, ?_, List.pairwise_singleton _ _, by simp⟩
    exact List.forall_mem_singleton.2 ⟨hn, hpos⟩

/-- What is left after the first part has the other parts, none of them above the first. -/
theorem isParts_cons_iff {n part : Name} (hn : t.contains n = true) {count : Nat}
    {parts : List Name} :
    IsParts t n (count + 2) (part :: parts) ↔ t.contains part = true ∧ 0 < t.degreeOf part ∧
      (∀ p ∈ parts, p ≤ part) ∧
        ∃ rest, t.subtract n part = .ok (some rest) ∧ IsParts t rest (count + 1) parts := by
  refine ⟨fun h => ?_, fun hm => ?_⟩
  · obtain ⟨⟨hp, hpos⟩, hnames⟩ := List.forall_mem_cons.1 h.names
    obtain ⟨hle, hdesc⟩ := List.pairwise_cons.1 h.descending
    have hsum := h.sum
    rw [List.map_cons, List.sum_cons] at hsum
    have hbelow : ∀ g, (parts.map t.count).sum g ≤ t.target.count g := by
      intro g
      have hg := congrFun hsum g
      rw [Pi.add_apply] at hg
      exact (Nat.le_add_left _ _).trans (hg.le.trans (Table.count_le_target n g))
    obtain ⟨rest, hcont, hrest⟩ := Table.exists_name hbelow
    refine ⟨hp, hpos, hle, rest, (Table.subtract_eq_some_iff hn hp).2 ⟨hcont, ?_⟩, ?_⟩
    · rw [hrest, hsum]
    · exact ⟨Nat.succ_pos _, Nat.succ.inj h.length, hnames, hdesc, hrest.symm⟩
  · obtain ⟨hp, hpos, hle, rest, hrest, h⟩ := hm
    have hsum := ((Table.subtract_eq_some_iff hn hp).1 hrest).2
    refine ⟨Nat.succ_pos _, ?_, ?_, ?_, ?_⟩
    · rw [List.length_cons, h.length]
    · exact List.forall_mem_cons.2 ⟨⟨hp, hpos⟩, h.names⟩
    · exact List.pairwise_cons.2 ⟨hle, h.descending⟩
    · rw [List.map_cons, List.sum_cons, h.sum, hsum]

theorem withinBound_of_le {bound : Option Name} {a b : Name} (h : withinBound bound b = true)
    (hab : a ≤ b) : withinBound bound a = true := by
  cases bound with
  | none => rfl
  | some c =>
    simp only [withinBound, decide_eq_true_eq] at h ⊢
    exact Nat.le_trans hab h

/-! ## The window of the first part -/

/-- The first of `count` parts of something of degree `n` may be any name of a degree in the window
that the bound allows. -/
theorem mem_firstParts {n count : Nat} {bound : Option Name} (hn : n ≤ t.target.degree)
    (hc : 2 ≤ count) (hle : count ≤ n) {part : Name} :
    part ∈ List.range' (firstParts t n count bound).1 (firstParts t n count bound).2 ↔
      t.contains part = true ∧ n ≤ count * t.degreeOf part ∧ t.degreeOf part + count ≤ n + 1 ∧
        withinBound bound part = true := by
  have hceil : (n + count - 1) / count ≤ n := by
    rw [Nat.div_le_iff_le_mul_add_pred (by omega)]
    have : 2 * n ≤ count * n := Nat.mul_le_mul_right n hc
    omega
  have hmost : n + 1 - count ≤ t.target.degree := by omega
  obtain ⟨hsize, hspan⟩ := Table.span_spec (hceil.trans hn) hmost
  have hwindow : ∀ p, (t.span ((n + count - 1) / count) (n + 1 - count)).1 ≤ p ∧
      p < (t.span ((n + count - 1) / count) (n + 1 - count)).2 ↔
        t.contains p = true ∧ n ≤ count * t.degreeOf p ∧ t.degreeOf p + count ≤ n + 1 := by
    intro p
    have hdiv : (n + count - 1) / count ≤ t.degreeOf p ↔ n ≤ count * t.degreeOf p := by
      rw [Nat.div_le_iff_le_mul_add_pred (by omega)]
      omega
    refine ⟨fun h => ?_, fun h => ?_⟩
    · obtain ⟨h1, h2⟩ := h
      have hp : t.contains p = true := decide_eq_true (Nat.lt_of_lt_of_le h2 hsize)
      exact ⟨hp, hdiv.1 ((hspan p hp).1.1 h1), by have := (hspan p hp).2.1 h2; omega⟩
    · obtain ⟨hp, h1, h2⟩ := h
      exact ⟨(hspan p hp).1.2 (hdiv.2 h1), (hspan p hp).2.2 (by omega)⟩
  rw [firstParts]
  cases bound with
  | none => simp only [mem_range'_sub, hwindow, withinBound, and_true]
  | some b =>
    rw [mem_range'_sub, lt_min_iff, Nat.lt_succ_iff, ← and_assoc, hwindow]
    simp only [withinBound, decide_eq_true_eq, and_assoc]

/-! ## The parts of one variable -/

/-- The search for the parts of one variable, as a list. -/
def partLists (t : Table) : (count : Nat) → (residual : Name) → (bound : Option Name) →
    List (List Name)
  | 0, _, _ => []
  | 1, residual, bound =>
    if 0 < t.degreeOf residual ∧ withinBound bound residual = true then [[residual]] else []
  | count + 2, residual, bound =>
    if t.degreeOf residual < count + 2 then []
    else
      (List.range' (firstParts t (t.degreeOf residual) (count + 2) bound).1
        (firstParts t (t.degreeOf residual) (count + 2) bound).2).flatMap fun part =>
          match t.subtract residual part with
          | .ok (some rest) => (partLists t (count + 1) rest (some part)).map (part :: ·)
          | _ => []

/-- A search for the parts of one variable in which `follow part` bounds the parts after `part`, as a
list. -/
def partListsWith (t : Table) (follow : Name → Option Name) : (count : Nat) → (residual : Name) →
    (bound : Option Name) → List (List Name)
  | 0, _, _ => []
  | 1, residual, bound =>
    if 0 < t.degreeOf residual ∧ withinBound bound residual = true then [[residual]] else []
  | count + 2, residual, bound =>
    if t.degreeOf residual < count + 2 then []
    else
      (List.range' (firstParts t (t.degreeOf residual) (count + 2) bound).1
        (firstParts t (t.degreeOf residual) (count + 2) bound).2).flatMap fun part =>
          match t.subtract residual part with
          | .ok (some rest) => (partListsWith t follow (count + 1) rest (follow part)).map (part :: ·)
          | _ => []

theorem partListsWith_some (count : Nat) (residual : Name) (bound : Option Name) :
    partListsWith t some count residual bound = partLists t count residual bound := by
  induction count, residual, bound using partLists.induct t with
  | case1 => rfl
  | case2 residual bound hc => rw [partListsWith, partLists]
  | case3 residual bound hc => rw [partListsWith, partLists]
  | case4 count residual bound hlt => rw [partListsWith, partLists, if_pos hlt, if_pos hlt]
  | case5 count residual bound hlt ih =>
    rw [partListsWith, partLists, if_neg hlt, if_neg hlt]
    simp only [ih]

/-- The search for the parts of one variable in which `follow part` bounds the parts after `part`. -/
def partsWith {α : Type} (t : Table) (follow : Name → Option Name) (next : List Name → Walk α) :
    (count : Nat) → (residual : Name) → (bound : Option Name) → (taken : List Name) → Walk α
  | 0, residual, _, _ => .poll fun _ => .attempt .fault (t.degree residual) fun _ => .done
  | 1, residual, bound, taken =>
    .poll fun _ => .attempt .fault (t.degree residual) fun n =>
      if n < 1 then .done
      else if withinBound bound residual then next (residual :: taken).reverse
      else .done
  | count + 2, residual, bound, taken =>
    .poll fun _ => .attempt .fault (t.degree residual) fun n =>
      if n < count + 2 then .done
      else
        let (first, number) := firstParts t n (count + 2) bound
        .chooseFrom first number fun part =>
          .attempt .fault (t.subtract residual part) fun
            | none => .done
            | some rest => partsWith t follow next (count + 1) rest (follow part) (part :: taken)

theorem partsWith_some {α : Type} (next : List Name → Walk α) (count : Nat) (residual : Name)
    (bound : Option Name) (taken : List Name) :
    partsWith t some next count residual bound taken = partsOf t next count residual bound taken := by
  induction count generalizing residual bound taken with
  | zero => rfl
  | succ count ih =>
    cases count with
    | zero => rfl
    | succ count =>
      simp only [partsWith, ih]
      rfl

section
variable {follow : Name → Option Name}

/-- A first part from the window, and parts of what it leaves that keep to the bound it sets. -/
theorem mem_partListsWith_step {count : Nat} {residual : Name} {bound : Option Name}
    (h : ¬ t.degreeOf residual < count + 2) {parts : List Name} :
    parts ∈ partListsWith t follow (count + 2) residual bound ↔ ∃ part rest parts',
      part ∈ List.range' (firstParts t (t.degreeOf residual) (count + 2) bound).1
        (firstParts t (t.degreeOf residual) (count + 2) bound).2 ∧
      t.subtract residual part = .ok (some rest) ∧
      parts' ∈ partListsWith t follow (count + 1) rest (follow part) ∧ part :: parts' = parts := by
  rw [partListsWith, if_neg h, List.mem_flatMap]
  refine ⟨fun hl => ?_, fun hl => ?_⟩
  · obtain ⟨part, hpart, hm⟩ := hl
    split at hm
    · rename_i rest hrest
      obtain ⟨parts', hparts', rfl⟩ := List.mem_map.1 hm
      exact ⟨part, rest, parts', hpart, hrest, hparts', rfl⟩
    · cases hm
  · obtain ⟨part, rest, parts', hpart, hrest, hparts', rfl⟩ := hl
    refine ⟨part, hpart, ?_⟩
    rw [hrest]
    exact List.mem_map.2 ⟨parts', hparts', rfl⟩

theorem yields_partsWith {α : Type} {next : List Name → Walk α} (spec : List Name → List α)
    {count : Nat} {residual : Name} {bound : Option Name} (taken : List Name)
    (hr : t.contains residual = true)
    (h : ∀ parts ∈ partListsWith t follow count residual bound,
      Yields (next (taken.reverse ++ parts)) (spec (taken.reverse ++ parts))) :
    Yields (partsWith t follow next count residual bound taken)
      ((partListsWith t follow count residual bound).flatMap fun parts =>
        spec (taken.reverse ++ parts)) := by
  induction count, residual, bound using partListsWith.induct t follow generalizing taken with
  | case1 residual bound => exact Yields.poll (Yields.attempt (Table.degree_eq hr) Yields.done)
  | case2 residual bound hc =>
    rw [partListsWith, if_pos hc] at h ⊢
    have hpart := h [residual] (by simp)
    refine Yields.poll (Yields.attempt (Table.degree_eq hr) ?_)
    simp only [if_neg (Nat.not_lt.2 (Nat.succ_le_of_lt hc.1)), if_pos hc.2, List.reverse_cons,
      List.flatMap_singleton]
    exact hpart
  | case3 residual bound hc =>
    rw [partListsWith, if_neg hc]
    refine Yields.poll (Yields.attempt (Table.degree_eq hr) ?_)
    split
    · exact Yields.done
    · rename_i hpos
      rw [if_neg fun hb => hc ⟨by omega, hb⟩]
      exact Yields.done
  | case4 count residual bound hlt =>
    rw [partListsWith, if_pos hlt]
    refine Yields.poll (Yields.attempt (Table.degree_eq hr) ?_)
    rw [if_pos hlt]
    exact Yields.done
  | case5 count residual bound hlt ih =>
    rw [partListsWith, if_neg hlt]
    refine Yields.poll (Yields.attempt (Table.degree_eq hr) ?_)
    rw [if_neg hlt]
    simp only [List.flatMap_assoc]
    apply Yields.chooseFrom
    intro part hpart
    have hp : t.contains part = true :=
      ((mem_firstParts (Table.degreeOf_le_target _) (by omega) (Nat.not_lt.1 hlt)).1 hpart).1
    obtain ⟨rest, hrest⟩ := Table.subtract_eq_ok hr hp
    apply Yields.attempt hrest
    cases rest with
    | none =>
      simp only [hrest, List.flatMap_nil]
      exact Yields.done
    | some rest =>
      have htaken : ∀ parts, (part :: taken).reverse ++ parts = taken.reverse ++ part :: parts := by
        intro parts
        rw [List.reverse_cons, List.append_assoc, List.singleton_append]
      have hrec := ih part rest (part :: taken)
        ((Table.subtract_eq_some_iff hr hp).1 hrest).1 fun parts hparts => by
          rw [htaken]
          exact h _ ((mem_partListsWith_step hlt).2 ⟨part, rest, parts, hpart, hrest, hparts, rfl⟩)
      simp only [htaken] at hrec
      simp only [hrest, List.flatMap_map]
      exact hrec

end

/-- A first part from the window, and parts of what it leaves that are not above it. -/
theorem mem_partLists_step {count : Nat} {residual : Name} {bound : Option Name}
    (h : ¬ t.degreeOf residual < count + 2) {parts : List Name} :
    parts ∈ partLists t (count + 2) residual bound ↔ ∃ part rest parts',
      part ∈ List.range' (firstParts t (t.degreeOf residual) (count + 2) bound).1
        (firstParts t (t.degreeOf residual) (count + 2) bound).2 ∧
      t.subtract residual part = .ok (some rest) ∧
      parts' ∈ partLists t (count + 1) rest (some part) ∧ part :: parts' = parts := by
  simp only [← partListsWith_some]
  exact mem_partListsWith_step h

theorem mem_partLists {count : Nat} {residual : Name} {bound : Option Name} {parts : List Name}
    (hr : t.contains residual = true) :
    parts ∈ partLists t count residual bound ↔
      IsParts t residual count parts ∧ ∀ p ∈ parts, withinBound bound p = true := by
  induction count, residual, bound using partLists.induct t generalizing parts with
  | case1 residual bound =>
    exact ⟨nofun, fun ⟨h, _⟩ => absurd h.count_pos (Nat.lt_irrefl 0)⟩
  | case2 residual bound hc =>
    rw [partLists, if_pos hc, List.mem_singleton, isParts_one_iff hr]
    refine ⟨?_, fun h => h.1.1⟩
    rintro rfl
    exact ⟨⟨rfl, hc.1⟩, List.forall_mem_singleton.2 hc.2⟩
  | case3 residual bound hc =>
    rw [partLists, if_neg hc, isParts_one_iff hr]
    refine ⟨nofun, fun ⟨h, hb⟩ => absurd ⟨h.2, ?_⟩ hc⟩
    rw [h.1] at hb
    exact hb residual List.mem_cons_self
  | case4 count residual bound hlt =>
    rw [partLists, if_pos hlt]
    exact ⟨nofun, fun ⟨h, _⟩ => absurd hlt (Nat.not_lt.2 h.count_le)⟩
  | case5 count residual bound hlt ih =>
    have hn : t.degreeOf residual ≤ t.target.degree := Table.degreeOf_le_target residual
    have hwindow := fun part => @mem_firstParts t _ _ bound hn (Nat.le_add_left 2 count)
      (Nat.not_lt.1 hlt) part
    have hbound : ∀ {part : Name} {parts : List Name},
        (∀ p ∈ parts, withinBound (some part) p = true) ↔ ∀ p ∈ parts, p ≤ part := by
      simp [withinBound]
    rw [mem_partLists_step hlt]
    refine ⟨fun hm => ?_, fun hm => ?_⟩
    · obtain ⟨part, rest, parts, hpart, hrest, hparts, rfl⟩ := hm
      obtain ⟨hp, hceil, -, hb⟩ := (hwindow part).1 hpart
      have hcont := ((Table.subtract_eq_some_iff hr hp).1 hrest).1
      obtain ⟨h, hle⟩ := (ih part rest hcont).1 hparts
      have hpos : 0 < t.degreeOf part := by
        apply Nat.pos_of_ne_zero
        intro h0
        rw [h0] at hceil
        omega
      have hle := hbound.1 hle
      refine ⟨(isParts_cons_iff hr).2 ⟨hp, hpos, hle, rest, hrest, h⟩, ?_⟩
      exact List.forall_mem_cons.2 ⟨hb, fun p hp => withinBound_of_le hb (hle p hp)⟩
    · obtain ⟨h, hb⟩ := hm
      obtain ⟨part, parts, rfl⟩ := List.exists_cons_of_length_eq_add_one h.length
      obtain ⟨hp, -, hle, rest, hrest, hparts⟩ := (isParts_cons_iff hr).1 h
      obtain ⟨hceil, hroom⟩ := h.window
      have hcont := ((Table.subtract_eq_some_iff hr hp).1 hrest).1
      refine ⟨part, rest, parts, (hwindow part).2 ⟨hp, hceil, hroom, ?_⟩, hrest, ?_, rfl⟩
      · exact hb part List.mem_cons_self
      · exact (ih part rest hcont).2 ⟨hparts, hbound.2 hle⟩

theorem pairwise_partLists (count : Nat) (residual : Name) (bound : Option Name) :
    (partLists t count residual bound).Pairwise (· < ·) := by
  induction count, residual, bound using partLists.induct t with
  | case1 => exact List.Pairwise.nil
  | case2 residual bound hc =>
    rw [partLists, if_pos hc]
    exact List.pairwise_singleton _ _
  | case3 residual bound hc =>
    rw [partLists, if_neg hc]
    exact List.Pairwise.nil
  | case4 count residual bound hlt =>
    rw [partLists, if_pos hlt]
    exact List.Pairwise.nil
  | case5 count residual bound hlt ih =>
    rw [partLists, if_neg hlt, List.pairwise_flatMap]
    refine ⟨fun part _ => ?_, ?_⟩
    · split
      · refine List.pairwise_map.2 ((ih part _).imp fun hlt => ?_)
        exact List.cons_lt_cons_iff.2 (.inr ⟨rfl, hlt⟩)
      · exact List.Pairwise.nil
    · have hnames : (List.range' (firstParts t (t.degreeOf residual) (count + 2) bound).1
          (firstParts t (t.degreeOf residual) (count + 2) bound).2).Pairwise (· < ·) :=
        List.pairwise_lt_range'
      refine hnames.imp fun {part part'} hlt parts hparts parts' hparts' => ?_
      split at hparts
      · split at hparts'
        · obtain ⟨ps, -, rfl⟩ := List.mem_map.1 hparts
          obtain ⟨ps', -, rfl⟩ := List.mem_map.1 hparts'
          exact List.cons_lt_cons_iff.2 (.inl hlt)
        · cases hparts'
      · cases hparts

theorem nodup_partLists (count : Nat) (residual : Name) (bound : Option Name) :
    (partLists t count residual bound).Nodup := by
  refine (pairwise_partLists count residual bound).imp ?_
  rintro parts _ hlt rfl
  exact List.lt_irrefl _ hlt

/-! ## Partitions -/

/-- The ways to divide several multidegrees, as a list. -/
def partitionLists (t : Table) (l : List (Name × Nat)) : List Partition :=
  choices (l.map fun x => partLists t x.2 x.1 none)

/-- The search for the ways to divide several multidegrees in which `follow part` bounds the parts of
a variable after `part`. -/
def partsOfAllWith (t : Table) (follow : Name → Option Name) :
    List (Name × Nat) → (taken : Partition) → Walk Partition
  | [], taken => .visit taken.reverse
  | (n, count) :: rest, taken =>
    partsWith t follow (fun parts => partsOfAllWith t follow rest (parts :: taken)) count n none []

theorem partsOfAllWith_some (l : List (Name × Nat)) (taken : Partition) :
    partsOfAllWith t some l taken = partsOfAll t l taken := by
  induction l generalizing taken with
  | nil => rfl
  | cons x l ih => simp only [partsOfAllWith, partsOfAll, ih, partsWith_some]

theorem yields_partsOfAllWith (follow : Name → Option Name) {l : List (Name × Nat)}
    (hl : ∀ x ∈ l, t.contains x.1 = true) (taken : Partition) :
    Yields (partsOfAllWith t follow l taken)
      ((choices (l.map fun x => partListsWith t follow x.2 x.1 none)).map (taken.reverse ++ ·)) := by
  induction l generalizing taken with
  | nil => exact (Yields.visit _).congr (by simp [choices])
  | cons x l ih =>
    obtain ⟨n, count⟩ := x
    rw [List.forall_mem_cons] at hl
    rw [partsOfAllWith, List.map_cons, choices, List.map_flatMap]
    simp only [List.map_map]
    refine yields_partsWith (fun parts =>
      (choices (l.map fun x => partListsWith t follow x.2 x.1 none)).map
        ((taken.reverse ++ ·) ∘ (parts :: ·))) [] hl.1 ?_
    intro parts _
    refine (ih hl.2 (parts :: taken)).congr (List.map_congr_left fun p _ => ?_)
    rw [List.reverse_cons, List.append_assoc]
    rfl

theorem yields_partsOfAll {l : List (Name × Nat)} (hl : ∀ x ∈ l, t.contains x.1 = true)
    (taken : Partition) :
    Yields (partsOfAll t l taken) ((partitionLists t l).map (taken.reverse ++ ·)) := by
  simp only [partitionLists, ← partListsWith_some, ← partsOfAllWith_some]
  exact yields_partsOfAllWith some hl taken

theorem mem_partitionLists {l : List (Name × Nat)} (hl : ∀ x ∈ l, t.contains x.1 = true)
    {p : Partition} :
    p ∈ partitionLists t l ↔ List.Forall₂ (fun parts x => IsParts t x.1 x.2 parts) p l := by
  rw [partitionLists, mem_choices_map, List.forall₂_iff_get, List.forall₂_iff_get]
  refine and_congr_right fun _ => forall₃_congr fun i hi hi' => ?_
  rw [mem_partLists (hl _ (List.get_mem _ _))]
  simp [withinBound]

theorem pairwise_partitionLists {l : List (Name × Nat)} (hl : ∀ x ∈ l, t.contains x.1 = true) :
    (partitionLists t l).Pairwise fun p q => p.flatten < q.flatten := by
  refine pairwise_choices fun ps hps => ?_
  obtain ⟨x, hx, rfl⟩ := List.mem_map.1 hps
  exact ⟨pairwise_partLists _ _ _, x.2, fun parts hparts =>
    ((mem_partLists (hl x hx)).1 hparts).1.length⟩

theorem nodup_partitionLists (l : List (Name × Nat)) : (partitionLists t l).Nodup := by
  apply nodup_choices
  intro ps hps
  obtain ⟨x, -, rfl⟩ := List.mem_map.1 hps
  exact nodup_partLists _ _ _

section
variable {split : List Name} {degrees : List Nat} (hlen : split.length = degrees.length)
  (hne : split ≠ []) (hs : ∀ n ∈ split, t.contains n = true)
include hlen hne hs

/-- The parts that the search finds do not increase, so that nothing is left out at the end. -/
theorem yields_partitions :
    Yields (partitions t split degrees) (partitionLists t (split.zip degrees)) := by
  have hl : ∀ x ∈ split.zip degrees, t.contains x.1 = true :=
    fun x hx => hs x.1 (List.of_mem_zip hx).1
  rw [partitions, if_neg (not_not_intro hlen), if_neg (by simpa using hne)]
  apply ((yields_partsOfAll hl []).filter _).congr
  simp only [List.reverse_nil, List.nil_append, List.map_id']
  refine List.filter_eq_self.2 fun p hp => List.all_eq_true.2 fun parts hparts => ?_
  obtain ⟨i, hi, rfl⟩ := List.getElem_of_mem hparts
  have h := (mem_partitionLists hl).1 hp
  exact isDescending_iff.2 (h.get hi (h.length_eq ▸ hi)).descending

theorem mem_partitions {p : Partition} :
    p ∈ (partitions t split degrees).toList ↔
      List.Forall₂ (fun parts x => IsParts t x.1 x.2 parts) p (split.zip degrees) := by
  rw [(yields_partitions hlen hne hs).toList]
  exact mem_partitionLists fun x hx => hs x.1 (List.of_mem_zip hx).1

theorem nodup_partitions : (partitions t split degrees).toList.Nodup := by
  rw [(yields_partitions hlen hne hs).toList]
  exact nodup_partitionLists _

end

end Nonassoc.Search
