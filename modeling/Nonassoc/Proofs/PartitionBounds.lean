import Mathlib.Data.List.Sort
import Nonassoc.Proofs.Partitions
import Nonassoc.Proofs.Visits

/-!
# The bounds in the search for partitions

The search for partitions lets every part bound the parts after it, and looks at what it has found
once more. `candidates t follow split degrees` is the search without that last look and with any
choice of bounds: with `some`, each part bounds the next ones; with none at all, it is the plain search
for all sequences of parts.

`partitions_eq_plain`: the bounds leave of the plain search just what does not increase, in the same
order, and the last look rejects nothing. For the parts of one variable, this is
`partLists_eq_filter`.
-/

namespace Nonassoc.Search

open Multidegree (Name Table)

variable {t : Table} {follow : Name → Option Name}

/-- The search for partitions without the check at its end, where `follow part` bounds the parts of a
variable after `part`. -/
def candidates (t : Table) (follow : Name → Option Name) (split : List Name) (degrees : List Nat) :
    Walk Partition :=
  if split.length ≠ degrees.length then .fail (.fault .lengths)
  else if split.isEmpty then .done
  else partsOfAllWith t follow (split.zip degrees) []

/-- No part sets a bound. -/
def unbounded (_ : Name) : Option Name := none

theorem partitions_eq_filter (t : Table) (split : List Name) (degrees : List Nat) :
    partitions t split degrees = (candidates t some split degrees).filter Partition.isCanonical := by
  unfold partitions candidates
  split
  · rfl
  split
  · rfl
  · rw [partsOfAllWith_some]

/-! ## The parts of one variable -/

/-- A bound keeps the names of the window that are not above it. -/
theorem range_firstParts (n count : Nat) (bound : Option Name) :
    List.range' (firstParts t n count bound).1 (firstParts t n count bound).2 =
      (List.range' (firstParts t n count none).1 (firstParts t n count none).2).filter
        (withinBound bound) := by
  cases bound with
  | none => exact (List.filter_eq_self.2 fun _ _ => rfl).symm
  | some b =>
    refine (List.pairwise_lt_range' 1).eq_of_mem_iff ((List.pairwise_lt_range' 1).filter _)
      fun part => ?_
    have hbound : withinBound (some b) part = true ↔ part ≤ b := decide_eq_true_iff
    rw [List.mem_filter, hbound]
    simp only [firstParts, mem_range'_sub]
    omega

/-- What a bound leaves of the ways to divide a name: the parts do not increase, and keep to the
bound. -/
def keeps (bound : Option Name) (parts : List Name) : Bool :=
  Partition.isDescending parts && parts.all (withinBound bound)

theorem keeps_cons (bound : Option Name) (part : Name) (parts : List Name) :
    keeps bound (part :: parts) = (withinBound bound part && keeps (some part) parts) := by
  have hwithin : ∀ p, withinBound (some part) p = true ↔ p ≤ part := fun p => decide_eq_true_iff
  rw [Bool.eq_iff_iff]
  simp only [keeps, Bool.and_eq_true, isDescending_iff, List.pairwise_cons, List.all_eq_true,
    List.forall_mem_cons, hwithin, ge_iff_le]
  refine ⟨fun ⟨⟨hle, hdesc⟩, hpart, _⟩ => ⟨hpart, hdesc, hle⟩, fun ⟨hpart, hdesc, hle⟩ =>
    ⟨⟨hle, hdesc⟩, hpart, fun p hp => withinBound_of_le hpart (hle p hp)⟩⟩

/-- The bounds leave what does not increase of the plain search, in the same order. -/
theorem partLists_eq_filter (count : Nat) (residual : Name) (bound : Option Name) :
    partLists t count residual bound =
      (partListsWith t unbounded count residual none).filter (keeps bound) := by
  induction count, residual, bound using partLists.induct t with
  | case1 => rfl
  | case2 residual bound hc =>
    rw [partLists, partListsWith, if_pos hc, if_pos ⟨hc.1, rfl⟩]
    simp [keeps, Partition.isDescending, hc.2]
  | case3 residual bound hc =>
    rw [partLists, partListsWith, if_neg hc]
    split
    · rename_i hpos
      have hb : withinBound bound residual = false := by simpa [hpos.1] using hc
      simp [keeps, hb]
    · rfl
  | case4 count residual bound hlt =>
    rw [partLists, partListsWith, if_pos hlt, if_pos hlt]
    rfl
  | case5 count residual bound hlt ih =>
    rw [partLists, partListsWith, if_neg hlt, if_neg hlt, List.filter_flatMap, range_firstParts,
      flatMap_filter]
    refine List.flatMap_congr fun part _ => ?_
    -- beyond the bound, the filter drops all that the plain search goes on with
    split
    · rename_i hbound
      split
      · rename_i rest _
        rw [List.filter_map, ih part rest]
        refine congrArg (List.map _) (List.filter_congr fun parts _ => ?_)
        rw [Function.comp_apply, keeps_cons, hbound, Bool.true_and]
      · rfl
    · rename_i hbound
      split
      · refine (List.filter_eq_nil_iff.2 fun parts hparts => ?_).symm
        obtain ⟨parts, -, rfl⟩ := List.mem_map.1 hparts
        rw [keeps_cons, Bool.and_eq_true]
        exact fun h => hbound h.1
      · rfl

/-! ## Names outside the table -/

theorem toList_choose_eq_nil {α β : Type} {l : List β} {next : β → Walk α}
    (h : ∀ b, (next b).toList = []) : (Walk.choose l next).toList = [] := by
  fun_induction Walk.choose l next with
  | case1 => rfl
  | case2 b next => exact h b
  | case3 b c rest next ih =>
    rw [Walk.toList, h b, ih h]
    split <;> rfl

/-- A search that finds nothing for the variables that come later finds nothing. -/
theorem toList_partsWith_eq_nil {α : Type} {next : List Name → Walk α}
    (h : ∀ parts, (next parts).toList = []) (count : Nat) (residual : Name) (bound : Option Name)
    (taken : List Name) : (partsWith t follow next count residual bound taken).toList = [] := by
  induction count generalizing residual bound taken with
  | zero =>
    simp only [partsWith, Walk.toList_poll]
    cases t.degree residual <;> rfl
  | succ count ih =>
    cases count with
    | zero =>
      simp only [partsWith, Walk.toList_poll]
      cases t.degree residual with
      | error e => rfl
      | ok n =>
        simp only [Walk.attempt]
        split
        · rfl
        split
        · exact h _
        · rfl
    | succ count =>
      simp only [partsWith, Walk.toList_poll]
      cases t.degree residual with
      | error e => rfl
      | ok n =>
        simp only [Walk.attempt]
        split
        · rfl
        rw [Walk.chooseFrom_eq_choose]
        refine toList_choose_eq_nil fun part => ?_
        rcases t.subtract residual part with e | _ | rest
        · rfl
        · rfl
        · exact ih _ _ _

/-- If one of the names is not in the table, nothing is found. -/
theorem toList_partsOfAllWith_eq_nil {l : List (Name × Nat)} {x : Name × Nat} (hx : x ∈ l)
    (hout : t.contains x.1 = false) (taken : Partition) :
    (partsOfAllWith t follow l taken).toList = [] := by
  induction l generalizing taken with
  | nil => cases hx
  | cons y l ih =>
    obtain ⟨n, count⟩ := y
    rw [partsOfAllWith]
    rcases List.mem_cons.1 hx with rfl | hx
    · have hdegree : ∃ e, t.degree n = .error e := by
        cases hd : t.degree n with
        | error e => exact ⟨e, rfl⟩
        | ok d => exact absurd (Table.degree_eq_ok_iff.1 hd).1 (by simp [hout])
      obtain ⟨e, he⟩ := hdegree
      rcases count with _ | _ | count <;> simp [partsWith, he, Walk.attempt]
    · exact toList_partsWith_eq_nil (fun parts => ih hx (parts :: taken)) _ _ _ _

/-! ## All variables -/

theorem toList_partsOfAllWith_some (l : List (Name × Nat)) :
    (partsOfAllWith t some l []).toList =
      (partsOfAllWith t unbounded l []).toList.filter Partition.isCanonical := by
  by_cases hl : ∀ x ∈ l, t.contains x.1 = true
  · have hkeeps : keeps none = Partition.isDescending := by
      funext parts
      simp [keeps, withinBound]
    rw [(yields_partsOfAllWith some hl []).toList, (yields_partsOfAllWith unbounded hl []).toList]
    simp only [List.reverse_nil, List.nil_append, List.map_id', partListsWith_some,
      partLists_eq_filter, hkeeps]
    exact choices_map_filter _ _ _
  · push Not at hl
    obtain ⟨x, hx, hout⟩ := hl
    rw [toList_partsOfAllWith_eq_nil hx (Bool.eq_false_iff.2 hout),
      toList_partsOfAllWith_eq_nil hx (Bool.eq_false_iff.2 hout)]
    rfl

theorem toList_candidates_some (t : Table) (split : List Name) (degrees : List Nat) :
    (candidates t some split degrees).toList =
      (candidates t unbounded split degrees).toList.filter Partition.isCanonical := by
  unfold candidates
  split
  · rfl
  split
  · rfl
  · exact toList_partsOfAllWith_some _

/-! ## Room for the parts -/

/-- A variable cannot have as many parts as there are names. -/
theorem IsParts.count_lt_size {n : Name} {count : Nat} {parts : List Name}
    (h : IsParts t n count parts) (hn : t.contains n = true) : count < t.size :=
  calc
    count ≤ t.degreeOf n := h.count_le
    _ ≤ n := Table.degreeOf_le hn
    _ < t.size := of_decide_eq_true hn

/-- Each number of parts that is asked for is that of a name. -/
theorem exists_isParts {split : List Name} {degrees : List Nat} (hlen : split.length = degrees.length)
    {p : Partition}
    (hp : List.Forall₂ (fun parts x => IsParts t x.1 x.2 parts) p (split.zip degrees)) {d : Nat}
    (hd : d ∈ degrees) : ∃ n ∈ split, ∃ parts, IsParts t n d parts := by
  obtain ⟨v, hv, rfl⟩ := List.getElem_of_mem hd
  have hv' : v < (split.zip degrees).length := by
    rw [List.length_zip, hlen, Nat.min_self]
    exact hv
  have hparts := hp.get (hp.length_eq ▸ hv') hv'
  simp only [List.get_eq_getElem, List.getElem_zip] at hparts
  exact ⟨_, List.getElem_mem _, _, hparts⟩

/-- Where a variable asks for at least as many parts as there are names, nothing is found. -/
theorem toList_partitions_eq_nil {split : List Name} {degrees : List Nat} {d : Nat}
    (hd : d ∈ degrees) (hsize : t.size ≤ d) : (partitions t split degrees).toList = [] := by
  by_cases hlen : split.length = degrees.length
  swap
  · rw [partitions, if_pos hlen, Walk.toList_fail]
  have hne : split ≠ [] := by
    rintro rfl
    rw [List.length_eq_zero_iff.1 hlen.symm] at hd
    cases hd
  by_cases hs : ∀ n ∈ split, t.contains n = true
  · refine List.eq_nil_iff_forall_not_mem.2 fun p hp => ?_
    obtain ⟨n, hn, parts, hparts⟩ := exists_isParts hlen ((mem_partitions hlen hne hs).1 hp) hd
    exact absurd (hparts.count_lt_size (hs n hn)) (Nat.not_lt.2 hsize)
  · push Not at hs
    obtain ⟨n, hn, hout⟩ := hs
    obtain ⟨v, hv, rfl⟩ := List.getElem_of_mem hn
    have hv' : v < (split.zip degrees).length := by
      rw [List.length_zip, ← hlen, Nat.min_self]
      exact hv
    have hx := List.getElem_mem hv'
    rw [List.getElem_zip] at hx
    rw [partitions_eq_filter, Walk.toList_filter, candidates, if_neg (not_not_intro hlen),
      if_neg (by simpa using hne), toList_partsOfAllWith_eq_nil hx (Bool.eq_false_iff.2 hout)]
    rfl

/-- To set room aside before the search makes no difference to what is visited, unless the table has
more names than there is room for. -/
theorem visits_reservedPartitions {split : List Name} {degrees : List Nat}
    (h : (∀ d ∈ degrees, d ≤ wordCapacity) ∨ t.size ≤ wordCapacity) :
    (reservedPartitions t split degrees).Visits (partitions t split degrees).toList := by
  by_cases hd : ∀ d ∈ degrees, d ≤ wordCapacity
  · rw [reservedPartitions_eq hd]
    exact Walk.visits_toList _
  · have hall : ¬ degrees.all (· ≤ wordCapacity) = true := by simpa using hd
    have hsize := h.resolve_left hd
    push Not at hd
    obtain ⟨d, hd, hlarge⟩ := hd
    rw [reservedPartitions, if_neg hall, toList_partitions_eq_nil hd (hsize.trans hlarge.le)]
    exact Walk.visits_iff.2 rfl

/-- The search for partitions visits what the plain search visits, less what is not canonical, in the
same order. It is the search with bounds and a check at the end, and the check rejects nothing. -/
theorem partitions_eq_plain (t : Table) (split : List Name) (degrees : List Nat) :
    ∃ l plain, (partitions t split degrees).Visits l ∧
      (candidates t unbounded split degrees).Visits plain ∧
      l = plain.filter Partition.isCanonical ∧
      partitions t split degrees =
        (candidates t some split degrees).filter Partition.isCanonical ∧
      (candidates t some split degrees).Visits l ∧ (∀ p ∈ l, p.isCanonical = true) ∧
      ((∀ d ∈ degrees, d ≤ wordCapacity) ∨ t.size ≤ wordCapacity →
        (reservedPartitions t split degrees).Visits l) := by
  have hplain := toList_candidates_some t split degrees
  have hcanonical : ∀ p ∈ (candidates t some split degrees).toList, p.isCanonical = true := by
    intro p hp
    rw [hplain] at hp
    exact (List.mem_filter.1 hp).2
  have hlist : (partitions t split degrees).toList = (candidates t some split degrees).toList := by
    rw [partitions_eq_filter, Walk.toList_filter]
    exact List.filter_eq_self.2 hcanonical
  refine ⟨(candidates t some split degrees).toList, (candidates t unbounded split degrees).toList,
    Walk.visits_iff.2 hlist.symm, Walk.visits_toList _, hplain, partitions_eq_filter t split degrees,
    Walk.visits_toList _, hcanonical, fun h => ?_⟩
  rw [← hlist]
  exact visits_reservedPartitions h

end Nonassoc.Search
