import Mathlib.Data.List.Flatten
import Nonassoc.Proofs.PartitionBounds
import Nonassoc.Proofs.Splits

/-!
# The order of splits and partitions

The splits of a target come in strictly decreasing lexicographic order of their components, read one
generator after the other (`columnMajor`); the partitions of a split come in strictly increasing
lexicographic order of their names, read one variable after the other. Both orders are those of the
choices that a search makes: what is chosen first comes first in the reading, and the same number of
components or names is read from each choice (`pairwise_splits`, `pairwise_partitionLists`).

Main results: `splits_enumerated` and `partitions_enumerated`, which also say what is found.
-/

namespace Nonassoc.Search

open Multidegree (Name Table)

theorem add_count_eq {t : Table} {a b n : Name}
    (h : ∀ g < t.target.generators, t.count a g + t.count b g = t.count n g) :
    t.count a + t.count b = t.count n := by
  funext g
  rcases Nat.lt_or_ge g t.target.generators with hg | hg
  · exact h g hg
  · simp only [Pi.add_apply, Table.count_of_generators_le hg]

/-! ## Splits -/

/-- A split of a target: a name of the table for each variable, of at least the degree that the
variable asks for, all of them with the target as their sum. -/
structure IsSplit (t : Table) (target : Name) (least : List Nat) (split : List Name) : Prop where
  names : ∀ n ∈ split, t.contains n = true
  degrees : List.Forall₂ (· ≤ ·) least (split.map t.degreeOf)
  sum : (split.map t.count).sum = t.count target

/-- The search for splits visits each split once, in strictly decreasing lexicographic order of the
components read generator by generator. Where there cannot be any, it neither visits nor polls. -/
theorem splits_enumerated {t : Table} {target : Name} (ht : t.contains target = true)
    (least : List Nat) :
    ∃ l, (splits t target least).Enumerates l ∧
      (∀ split, split ∈ l ↔ least ≠ [] ∧ IsSplit t target least split) ∧ l.Nodup ∧
      l.Pairwise (fun split split' => columnMajor t split' < columnMajor t split) ∧
      (least = [] ∨ t.degreeOf target < least.sum → l = [] ∧
        ∀ {σ : Type} (visitor : List Name → Token → σ → Walk.Run σ) (token : Token) (s : σ),
          (splits t target least).forEach visitor token s = ⟨.ok (), token, s⟩) := by
  have hyields : Walk.Yields (splits t target least) (splits t target least).toList :=
    ⟨failure?_splits ht least, rfl⟩
  refine ⟨_, hyields.enumerates, fun split => ?_, nodup_splits ht least, pairwise_splits ht least,
    fun h => ?_⟩
  · rw [mem_splits ht]
    exact and_congr_right fun _ =>
      ⟨fun ⟨hnames, hdegrees, hsum⟩ => ⟨hnames, hdegrees, hsum⟩,
        fun hs => ⟨hs.names, hs.degrees, hs.sum⟩⟩
  · rw [splits_eq_done ht h]
    exact ⟨rfl, fun visitor token s => rfl⟩

/-- Two variables at the product of two generators: with one generator for each, the first of them
gets the first generator first. -/
theorem splits_enumerated_product :
    ∃ t, Table.ofTarget ⟨[1, 1]⟩ = .ok t ∧ t.contains 3 = true ∧
      ∃ l, (splits t 3 [1, 1]).Enumerates l ∧ [2, 1] ∈ l ∧ [1, 2] ∈ l ∧ [3, 0] ∉ l ∧
        columnMajor t [2, 1] = [1, 0, 0, 1] ∧ columnMajor t [1, 2] = [0, 1, 1, 0] ∧
        l.Pairwise fun split split' => columnMajor t split' < columnMajor t split := by
  obtain ⟨t, ht, h3, hnames, hdegrees, hsum, hread⟩ : ∃ t,
      Table.ofTarget ⟨[1, 1]⟩ = .ok t ∧ t.contains 3 = true ∧
      (t.contains 1 = true ∧ t.contains 2 = true) ∧
      (t.degreeOf 0 = 0 ∧ t.degreeOf 1 = 1 ∧ t.degreeOf 2 = 1) ∧
      (∀ g < t.target.generators, t.count 1 g + t.count 2 g = t.count 3 g) ∧
      columnMajor t [2, 1] = [1, 0, 0, 1] ∧ columnMajor t [1, 2] = [0, 1, 1, 0] :=
    ⟨_, rfl, by decide, by decide, by decide, by decide, by decide, by decide⟩
  obtain ⟨h0, h1, h2⟩ := hdegrees
  have hcount := add_count_eq hsum
  obtain ⟨l, hl, hmem, -, hpairwise, -⟩ := splits_enumerated h3 [1, 1]
  refine ⟨t, ht, h3, l, hl, (hmem _).2 ⟨by decide, ?_, ?_, ?_⟩, (hmem _).2 ⟨by decide, ?_, ?_, ?_⟩,
    fun h => ?_, hread.1, hread.2, hpairwise⟩
  · simp [hnames]
  · simp [h1, h2]
  · simpa [add_comm] using hcount
  · simp [hnames]
  · simp [h1, h2]
  · simpa using hcount
  · have hdegrees := ((hmem _).1 h).2.degrees
    simp [h0] at hdegrees

/-! ## Partitions -/

/-- The search for partitions visits each partition once, in strictly increasing lexicographic order
of the names read variable by variable. A search that sets room aside first does the same; where
there is not that much room it visits nothing, and then there is no partition either, unless the
table has more names than there is room for. -/
theorem partitions_enumerated {t : Table} {split : List Name} {degrees : List Nat}
    (hlen : split.length = degrees.length) (hne : split ≠ [])
    (hs : ∀ n ∈ split, t.contains n = true) :
    ∃ l, (partitions t split degrees).Enumerates l ∧
      ((∀ d ∈ degrees, d ≤ wordCapacity) → (reservedPartitions t split degrees).Enumerates l) ∧
      (t.size ≤ wordCapacity → (reservedPartitions t split degrees).Visits l) ∧
      (∀ p, p ∈ l ↔
        List.Forall₂ (fun parts x => IsParts t x.1 x.2 parts) p (split.zip degrees)) ∧
      (0 ∈ degrees → l = []) ∧ l.Nodup ∧ l.Pairwise fun p q => p.flatten < q.flatten := by
  have hl : ∀ x ∈ split.zip degrees, t.contains x.1 = true :=
    fun x hx => hs x.1 (List.of_mem_zip hx).1
  have hyields := yields_partitions hlen hne hs
  refine ⟨partitionLists t (split.zip degrees), hyields.enumerates, fun hd => ?_, fun hsize => ?_,
    fun p => mem_partitionLists hl, fun h0 => ?_, nodup_partitionLists _,
    pairwise_partitionLists hl⟩
  · rw [reservedPartitions_eq hd]
    exact hyields.enumerates
  · rw [← hyields.toList]
    exact visits_reservedPartitions (.inr hsize)
  · -- there are no parts without at least one of them
    refine List.eq_nil_iff_forall_not_mem.2 fun p hp => ?_
    obtain ⟨n, -, parts, hparts⟩ := exists_isParts hlen ((mem_partitionLists hl).1 hp) h0
    exact Nat.lt_irrefl 0 hparts.count_pos

/-- One variable that occurs twice, at the third power of a generator: the square comes before the
generator. -/
theorem partitions_enumerated_cube :
    ∃ t, Table.ofTarget ⟨[3]⟩ = .ok t ∧ t.contains 3 = true ∧ t.size ≤ wordCapacity ∧
      ∃ l, (partitions t [3] [2]).Enumerates l ∧ (reservedPartitions t [3] [2]).Visits l ∧
        [[2, 1]] ∈ l ∧ [[1, 2]] ∉ l ∧ l.Pairwise fun p q => p.flatten < q.flatten := by
  obtain ⟨t, ht, h3, hsize, hnames, hdegrees, hsum⟩ : ∃ t,
      Table.ofTarget ⟨[3]⟩ = .ok t ∧ t.contains 3 = true ∧ t.size ≤ wordCapacity ∧
      (t.contains 1 = true ∧ t.contains 2 = true) ∧ (0 < t.degreeOf 1 ∧ 0 < t.degreeOf 2) ∧
      ∀ g < t.target.generators, t.count 2 g + t.count 1 g = t.count 3 g :=
    ⟨_, rfl, by decide, by decide, by decide, by decide, by decide⟩
  have hcount := add_count_eq hsum
  have hlen : [3].length = [2].length := rfl
  obtain ⟨l, hl, -, hvisits, hmem, -, -, hpairwise⟩ := partitions_enumerated hlen
    (List.cons_ne_nil 3 []) (List.forall_mem_singleton.2 h3)
  refine ⟨t, ht, h3, hsize, l, hl, hvisits hsize, ?_, fun h => ?_, hpairwise⟩
  · refine (hmem _).2 (.cons ⟨by decide, rfl, ?_, by decide, ?_⟩ .nil)
    · simp [hnames, hdegrees]
    · simpa using hcount
  · cases (hmem _).1 h with
    | cons h _ => exact absurd h.descending (by decide)

end Nonassoc.Search
