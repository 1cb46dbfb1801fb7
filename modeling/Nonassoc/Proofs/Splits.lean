import Mathlib.Algebra.BigOperators.Pi
import Nonassoc.Proofs.Names
import Nonassoc.Proofs.Results
import Nonassoc.Proofs.Walk
import Nonassoc.Search.Split

/-!
# The splits of a target

`Search.splits` visits every way to write the target as a sum of multidegrees, one for each variable
and of at least the degree that it asks for, and visits it once: `mem_splits`, `nodup_splits`. What is
tried first is what gives most of the first generator to the first variable, so the splits come in a
lexicographic order (`pairwise_splits`).

`fills` lists the ways to divide one column, `grids` those to fill a table, without looking at
degrees. The search gives up a value as soon as too much is missing; `yields_fillColumn` says that
it finds all the same what it would find without: a table that comes after a value that was given up
leaves some variable short (`totalMissing_le_grow`).
-/

namespace Nonassoc.Search

open Multidegree (Name Table)
open Walk (Yields)

/-! ## Dividing a column -/

/-- The ways to divide `left` among `n` variables, the first of which takes less and less. -/
def fills : (n left : Nat) → List (List UInt8)
  | 0, _ => []
  | 1, left => [[UInt8.ofNat left]]
  | n + 2, left =>
    (List.range' 0 (left + 1)).flatMap fun i =>
      (fills (n + 1) i).map (UInt8.ofNat (left - i) :: ·)

theorem mem_fills {n left : Nat} (hl : left < 256) {xs : List UInt8} :
    xs ∈ fills n left ↔ 0 < n ∧ xs.length = n ∧ total (xs.map UInt8.toNat) = left := by
  induction n, left using fills.induct generalizing xs with
  | case1 => simp [fills]
  | case2 left =>
    rw [fills, List.mem_singleton]
    refine ⟨fun h => ?_, fun h => ?_⟩
    · obtain rfl := h
      refine ⟨Nat.one_pos, rfl, ?_⟩
      simp only [List.map_cons, List.map_nil, total_cons, total_nil, UInt8.toNat_ofNat']
      omega
    · obtain ⟨-, hlen, hs⟩ := h
      obtain ⟨x, rfl⟩ := List.length_eq_one_iff.1 hlen
      simp only [List.map_cons, List.map_nil, total_cons, total_nil, Nat.add_zero] at hs
      rw [← hs, UInt8.ofNat_toNat]
  | case3 n left ih =>
    rw [fills, List.mem_flatMap]
    simp only [List.mem_range'_1, List.mem_map]
    refine ⟨fun hm => ?_, fun hm => ?_⟩
    · obtain ⟨i, hi, ys, hys, rfl⟩ := hm
      obtain ⟨-, hlen, hs⟩ := (ih i (by omega)).1 hys
      simp only [List.length_cons, List.map_cons, total_cons, UInt8.toNat_ofNat']
      omega
    · obtain ⟨-, hlen, hs⟩ := hm
      cases xs with
      | nil => cases hlen
      | cons x ys =>
        simp only [List.length_cons, List.map_cons, total_cons] at hlen hs
        refine ⟨total (ys.map UInt8.toNat), by omega, ys, ?_, ?_⟩
        · exact (ih _ (by omega)).2 ⟨by omega, by omega, rfl⟩
        · rw [show left - total (ys.map UInt8.toNat) = x.toNat by omega, UInt8.ofNat_toNat]

/-- The first variable takes less and less of a column. -/
theorem pairwise_fills {n left : Nat} (hl : left < 256) :
    (fills n left).Pairwise fun xs ys => ys.map UInt8.toNat < xs.map UInt8.toNat := by
  induction n, left using fills.induct with
  | case1 => exact List.Pairwise.nil
  | case2 => exact List.pairwise_singleton _ _
  | case3 n left ih =>
    have hvalue : ∀ i, (UInt8.ofNat (left - i)).toNat = left - i := by
      intro i
      rw [UInt8.toNat_ofNat']
      omega
    rw [fills, List.pairwise_flatMap]
    refine ⟨fun i hi => ?_, ?_⟩
    · -- the same first value: the other variables decide
      have := List.mem_range'_1.1 hi
      refine List.pairwise_map.2 ((ih i (by omega)).imp fun hlt => ?_)
      rw [List.map_cons, List.map_cons, List.cons_lt_cons_iff]
      exact .inr ⟨rfl, hlt⟩
    · have hless : (List.range' 0 (left + 1)).Pairwise (· < ·) := List.pairwise_lt_range'
      refine hless.imp_of_mem fun {i j} _ hj hij xs hxs ys hys => ?_
      obtain ⟨xs, -, rfl⟩ := List.mem_map.1 hxs
      obtain ⟨ys, -, rfl⟩ := List.mem_map.1 hys
      have := List.mem_range'_1.1 hj
      rw [List.map_cons, List.map_cons, List.cons_lt_cons_iff, hvalue, hvalue]
      exact .inl (by omega)

/-! ## What is missing -/

/-- What all the shares together still miss. -/
def totalMissing (row : List Share) : Nat := total (row.map Share.missing)

/-- Every share has the degree that it has to reach. -/
def Reached (row : List Share) : Prop := ∀ s ∈ row, s.least ≤ s.degree

instance (row : List Share) : Decidable (Reached row) :=
  inferInstanceAs (Decidable (∀ s ∈ row, s.least ≤ s.degree))

@[simp] theorem totalMissing_cons (s : Share) (row : List Share) :
    totalMissing (s :: row) = s.missing + totalMissing row := rfl

theorem totalMissing_append (row row' : List Share) :
    totalMissing (row ++ row') = totalMissing row + totalMissing row' := by
  rw [totalMissing, List.map_append, total_append]
  rfl

theorem missing_grow (s : Share) (x : UInt8) :
    (s.grow x).missing ≤ s.missing ∧ s.missing ≤ (s.grow x).missing + x.toNat := by
  simp only [Share.missing, Share.grow]
  omega

/-- A column cannot make up for more than it holds. -/
theorem totalMissing_le_grow {row : List Share} {xs : List UInt8} (h : row.length = xs.length) :
    totalMissing row ≤
      totalMissing (List.zipWith Share.grow row xs) + total (xs.map UInt8.toNat) := by
  induction row generalizing xs with
  | nil => exact Nat.zero_le _
  | cons s row ih =>
    cases xs with
    | nil => cases h
    | cons x xs =>
      have := ih (Nat.succ.inj h)
      have := (missing_grow s x).2
      simp only [totalMissing_cons, List.zipWith_cons_cons, List.map_cons, total_cons]
      omega

theorem totalMissing_eq_zero {row : List Share} (h : Reached row) : totalMissing row = 0 := by
  induction row with
  | nil => rfl
  | cons s row ih =>
    have hs := h s (by simp)
    have := ih fun s hs => h s (List.mem_cons_of_mem _ hs)
    simp only [totalMissing_cons, Share.missing, this]
    omega

theorem Balance.give?_eq {b : Balance} {share : Share} {x : UInt8} (h : x.toNat ≤ b.unassigned) :
    b.give? share x =
      some ⟨b.unassigned - x.toNat, b.missing - (share.missing - (share.grow x).missing)⟩ := by
  rw [Balance.give?, if_neg (by omega)]

/-! ## Filling a column -/

/-- A search may not go on: more is missing than is left for later columns, or there is no later
column and a share is short. -/
def Short (lastColumn : Bool) (later : Nat) (row : List Share) : Prop :=
  later < totalMissing row ∨ lastColumn = true ∧ ¬ Reached row

theorem feasible_iff {lastColumn : Bool} {grown : Share} {b : Balance} :
    feasible lastColumn grown b = true ↔
      (lastColumn = true → grown.least ≤ grown.degree) ∧ b.missing ≤ b.unassigned := by
  cases lastColumn <;> simp [feasible]

/-- Where a value is given up, the search may not go on however the column is filled. -/
theorem short_of_not_feasible {lastColumn : Bool} {later i : Nat} {grown : Share}
    {before rest : List Share} {xs : List UInt8}
    (h : ¬ feasible lastColumn grown
      ⟨i + later, totalMissing (before.reverse ++ grown :: rest)⟩ = true)
    (hlen : rest.length = xs.length) (hxs : total (xs.map UInt8.toNat) = i) :
    Short lastColumn later (before.reverse ++ grown :: List.zipWith Share.grow rest xs) := by
  rw [feasible_iff, not_and_or, Classical.not_imp] at h
  rcases h with ⟨hlast, hdeg⟩ | hmissing
  · exact .inr ⟨hlast, fun hr => hdeg (hr grown (by simp))⟩
  · left
    have := totalMissing_le_grow hlen
    simp only [totalMissing_append, totalMissing_cons] at hmissing ⊢
    omega

/-- What is left and what is missing after a share has taken all but `i` of what is left of the
column. -/
theorem give?_value {share : Share} {before rest : List Share} {x : UInt8} {left i later : Nat}
    (hx : x.toNat + i = left) :
    Balance.give? ⟨left + later, totalMissing (before.reverse ++ share :: rest)⟩ share x =
      some ⟨i + later, totalMissing (before.reverse ++ share.grow x :: rest)⟩ := by
  have := missing_grow share x
  rw [Balance.give?_eq (by simp only; omega)]
  simp only [totalMissing_append, totalMissing_cons, Option.some.injEq, Balance.mk.injEq]
  omega

/-- The value that leaves `i` of the column for the variables after this one. -/
theorem value_spec {left : UInt8} {i : Nat} (hi : i ≤ left.toNat) :
    left - UInt8.ofNat i = UInt8.ofNat (left.toNat - i) ∧
      (UInt8.ofNat (left.toNat - i)).toNat + i = left.toNat := by
  have hlt := left.toNat_lt
  have hn : (UInt8.ofNat i).toNat = i := by
    rw [UInt8.toNat_ofNat']
    omega
  have hle : UInt8.ofNat i ≤ left := UInt8.le_iff_toNat_le.2 (by omega)
  have hs := UInt8.toNat_sub_of_le left _ hle
  rw [hn] at hs
  have hn' : (UInt8.ofNat (left.toNat - i)).toNat = left.toNat - i := by
    rw [UInt8.toNat_ofNat']
    omega
  refine ⟨?_, by omega⟩
  rw [← UInt8.toNat_inj, hs, hn']

theorem cons_mem_fills {n left i : Nat} (hi : i ≤ left) {xs : List UInt8}
    (hxs : xs ∈ fills (n + 1) i) : UInt8.ofNat (left - i) :: xs ∈ fills (n + 2) left :=
  List.mem_flatMap.2 ⟨i, List.mem_range'_1.2 (by omega), List.mem_map.2 ⟨xs, hxs, rfl⟩⟩

section
variable {α : Type} {lastColumn : Bool} {bound : UInt8} {next : List Share → Balance → Walk α}
  {spec : List Share → List α} {later : Nat}

/-- The last variable takes all that is left of the column. -/
theorem yields_fillColumn_last {share : Share} {used left : UInt8} {before : List Share}
    (hsub : subByte? bound used = some left) (hbefore : lastColumn = true → Reached before)
    (hnext : ¬ Short lastColumn later (before.reverse ++ [share.grow left]) →
      Yields (next (before.reverse ++ [share.grow left])
        ⟨later, totalMissing (before.reverse ++ [share.grow left])⟩)
        (spec (before.reverse ++ [share.grow left])))
    (hspec : Short lastColumn later (before.reverse ++ [share.grow left]) →
      spec (before.reverse ++ [share.grow left]) = []) :
    Yields
      (fillColumn lastColumn bound next [share] used
        ⟨left.toNat + later, totalMissing (before.reverse ++ [share])⟩ before)
      (spec (before.reverse ++ [share.grow left])) := by
  have hx : left - UInt8.ofNat 0 = left := (value_spec (Nat.zero_le _)).1.trans (by simp)
  rw [fillColumn]
  apply Yields.poll
  simp only [hsub, List.isEmpty_nil, if_true, Nat.add_sub_cancel_left, Walk.chooseFrom, hx,
    give?_value (Nat.add_zero left.toNat), Nat.zero_add]
  refine Yields.ite (fun hf => ?_) fun hf => ?_
  · obtain ⟨hlast, hle⟩ := feasible_iff.1 hf
    rw [List.reverse_cons]
    apply hnext
    rintro (hshort | ⟨hl, hr⟩)
    · exact Nat.not_lt.2 hle hshort
    · apply hr
      intro s hs
      rcases List.mem_append.1 hs with hs | hs
      · exact hbefore hl s (List.mem_reverse.1 hs)
      · rw [List.mem_singleton.1 hs]
        exact hlast hl
  · rw [← Nat.zero_add later] at hf
    have hnone : total (([] : List UInt8).map UInt8.toNat) = 0 := rfl
    exact hspec (short_of_not_feasible hf rfl hnone)

/-- A column search yields what is specified for each way to fill the column, provided that nothing
is specified where the search may not go on. -/
theorem yields_fillColumn {shares : List Share} {used : UInt8} {before : List Share}
    (hused : used ≤ bound) (hbefore : lastColumn = true → Reached before)
    (hnext : ∀ xs ∈ fills shares.length (bound.toNat - used.toNat), ∀ row,
      row = before.reverse ++ List.zipWith Share.grow shares xs →
      ¬ Short lastColumn later row → Yields (next row ⟨later, totalMissing row⟩) (spec row))
    (hspec : ∀ xs ∈ fills shares.length (bound.toNat - used.toNat), ∀ row,
      row = before.reverse ++ List.zipWith Share.grow shares xs →
      Short lastColumn later row → spec row = []) :
    Yields
      (fillColumn lastColumn bound next shares used
        ⟨bound.toNat - used.toNat + later, totalMissing (before.reverse ++ shares)⟩ before)
      ((fills shares.length (bound.toNat - used.toNat)).flatMap fun xs =>
        spec (before.reverse ++ List.zipWith Share.grow shares xs)) := by
  induction shares generalizing used before with
  | nil => exact Yields.done
  | cons share rest ih =>
    have hub := UInt8.le_iff_toNat_le.1 hused
    obtain ⟨left, hsub⟩ : ∃ left, subByte? bound used = some left := ⟨_, if_pos hused⟩
    have hleft := toNat_of_subByte? hsub
    have hleft' : bound.toNat - used.toNat = left.toNat := by omega
    rw [hleft'] at hnext hspec ⊢
    cases rest with
    | nil =>
      simp only [List.length_cons, List.length_nil, Nat.zero_add, fills, UInt8.ofNat_toNat,
        List.flatMap_singleton, List.mem_singleton, forall_eq] at hnext hspec ⊢
      exact yields_fillColumn_last hsub hbefore hnext hspec
    | cons share' rest =>
      rw [fillColumn]
      apply Yields.poll
      simp only [hsub, List.isEmpty_cons, Bool.false_eq_true, if_false, Nat.sub_zero,
        List.length_cons, fills, List.flatMap_assoc, List.flatMap_map]
      apply Yields.chooseFrom
      intro i hi
      have hi : i ≤ left.toNat := by
        have := List.mem_range'_1.1 hi
        omega
      obtain ⟨hxe, hx⟩ := value_spec hi
      rw [hxe, give?_value hx]
      refine Yields.ite (fun hf => ?_) fun hf => ?_
      · -- the others divide the `i` that this one leaves
        obtain ⟨hlast, -⟩ := feasible_iff.1 hf
        obtain ⟨used', hadd⟩ : ∃ u, addByte? used (UInt8.ofNat (left.toNat - i)) = some u :=
          ⟨_, if_pos (by have := bound.toNat_lt; omega)⟩
        have hused' := toNat_of_addByte? hadd
        have hi' : bound.toNat - used'.toNat = i := by omega
        have hrow : ∀ xs, (share.grow (UInt8.ofNat (left.toNat - i)) :: before).reverse ++
            List.zipWith Share.grow (share' :: rest) xs =
              before.reverse ++ List.zipWith Share.grow (share :: share' :: rest)
                (UInt8.ofNat (left.toNat - i) :: xs) := by
          intro xs
          rw [List.reverse_cons, List.append_assoc]
          rfl
        have hrec := @ih used' (share.grow (UInt8.ofNat (left.toNat - i)) :: before)
          (UInt8.le_iff_toNat_le.2 (by omega))
          (fun hl => List.forall_mem_cons.2 ⟨hlast hl, hbefore hl⟩)
        rw [hi'] at hrec
        simp only [hrow] at hrec
        rw [List.reverse_cons, List.append_assoc] at hrec
        simp only [hadd]
        exact hrec (fun xs hxs => hnext _ (cons_mem_fills hi hxs)) fun xs hxs =>
          hspec _ (cons_mem_fills hi hxs)
      · -- nothing that the others can do makes up for what is missing
        apply List.flatMap_eq_nil_iff.2
        intro xs hxs
        obtain ⟨-, hlen, hs⟩ := (mem_fills (Nat.lt_of_le_of_lt hi left.toNat_lt)).1 hxs
        exact hspec _ (cons_mem_fills hi hxs) _ rfl (short_of_not_feasible hf hlen.symm hs)

/-- A search that fills a column from its start. -/
theorem yields_column (spec : List Share → List α) {shares : List Share}
    (hnext : ∀ xs ∈ fills shares.length bound.toNat,
      ¬ Short lastColumn later (List.zipWith Share.grow shares xs) →
      Yields (next (List.zipWith Share.grow shares xs)
        ⟨later, totalMissing (List.zipWith Share.grow shares xs)⟩)
        (spec (List.zipWith Share.grow shares xs)))
    (hspec : ∀ xs ∈ fills shares.length bound.toNat,
      Short lastColumn later (List.zipWith Share.grow shares xs) →
      spec (List.zipWith Share.grow shares xs) = []) :
    Yields (fillColumn lastColumn bound next shares 0 ⟨bound.toNat + later, totalMissing shares⟩ [])
      ((fills shares.length bound.toNat).flatMap fun xs =>
        spec (List.zipWith Share.grow shares xs)) := by
  refine yields_fillColumn UInt8.zero_le (fun _ _ h => absurd h List.not_mem_nil) ?_ ?_
  · rintro xs hxs row rfl hshort
    exact hnext xs hxs hshort
  · rintro xs hxs row rfl hshort
    exact hspec xs hxs hshort

end

/-! ## Filling a table -/

/-- The tables with `n` rows whose columns have the given sums. -/
def grids : (columns : List UInt8) → (n : Nat) → List (List (List UInt8))
  | [], n => [List.replicate n []]
  | bound :: columns, n =>
    (fills n bound.toNat).flatMap fun xs => (grids columns n).map (List.zipWith List.cons xs)

/-- A share after it was given an entry of every column. -/
def giveRow (s : Share) (row : List UInt8) : Share := row.foldl Share.grow s

/-- The sums of the columns of a table. -/
def columnSum (rows : List (List UInt8)) (g : Nat) : Nat :=
  total (rows.map fun row => (row.getD g 0).toNat)

theorem columnSum_zipWith_cons {xs : List UInt8} {rows : List (List UInt8)}
    (h : xs.length = rows.length) (g : Nat) :
    columnSum (List.zipWith List.cons xs rows) (g + 1) = columnSum rows g ∧
      columnSum (List.zipWith List.cons xs rows) 0 = total (xs.map UInt8.toNat) := by
  induction xs generalizing rows with
  | nil =>
    obtain rfl := List.length_eq_zero_iff.1 h.symm
    exact ⟨rfl, rfl⟩
  | cons x xs ih =>
    cases rows with
    | nil => cases h
    | cons row rows =>
      obtain ⟨h1, h2⟩ := ih (Nat.succ.inj h)
      simp only [columnSum] at h1 h2 ⊢
      simp only [List.zipWith_cons_cons, List.map_cons, total_cons, h1, h2]
      exact ⟨rfl, rfl⟩

/-- A table with a column in front is that column and the rest. -/
theorem exists_zipWith_cons {rows : List (List UInt8)} {n : Nat}
    (h : ∀ row ∈ rows, row.length = n + 1) :
    ∃ xs rows', xs.length = rows'.length ∧ (∀ row ∈ rows', row.length = n) ∧
      List.zipWith List.cons xs rows' = rows := by
  induction rows with
  | nil => exact ⟨[], [], rfl, by simp, rfl⟩
  | cons row rows ih =>
    obtain ⟨xs, rows', hlen, hn, rfl⟩ := ih fun row hrow => h row (List.mem_cons_of_mem _ hrow)
    obtain ⟨x, row', rfl⟩ := List.exists_cons_of_length_eq_add_one (h row (by simp))
    refine ⟨x :: xs, row' :: rows', by simp [hlen], ?_, rfl⟩
    simpa using ⟨Nat.succ.inj (h _ List.mem_cons_self), hn⟩

/-- The column in front and the rest can be read off again. -/
theorem map_zipWith_cons {xs : List UInt8} {rows : List (List UInt8)}
    (h : xs.length = rows.length) :
    (List.zipWith List.cons xs rows).map (·.headD 0) = xs ∧
      (List.zipWith List.cons xs rows).map List.tail = rows := by
  induction xs generalizing rows with
  | nil => exact ⟨rfl, (List.length_eq_zero_iff.1 h.symm).symm⟩
  | cons x xs ih =>
    cases rows with
    | nil => cases h
    | cons row rows =>
      obtain ⟨h1, h2⟩ := ih (Nat.succ.inj h)
      simp only [List.zipWith_cons_cons, List.map_cons, List.headD_cons, List.tail_cons, h1, h2,
        and_self]

theorem length_of_mem_zipWith_cons {xs : List UInt8} {rows : List (List UInt8)} {n : Nat}
    (h : ∀ row ∈ rows, row.length = n) :
    ∀ row ∈ List.zipWith List.cons xs rows, row.length = n + 1 := by
  induction xs generalizing rows with
  | nil => simp
  | cons x xs ih =>
    cases rows with
    | nil => simp
    | cons row rows =>
      simp only [List.mem_cons, forall_eq_or_imp] at h
      simpa [h.1] using ih h.2

theorem mem_grids {columns : List UInt8} {n : Nat} (hn : 0 < n) {rows : List (List UInt8)} :
    rows ∈ grids columns n ↔ rows.length = n ∧ (∀ row ∈ rows, row.length = columns.length) ∧
      ∀ g, columnSum rows g = (columns.getD g 0).toNat := by
  induction columns generalizing rows with
  | nil =>
    rw [grids, List.mem_singleton, List.eq_replicate_iff]
    refine and_congr_right fun hlen => ⟨fun h => ⟨fun row hrow => ?_, fun g => ?_⟩,
      fun h row hrow => List.length_eq_zero_iff.1 (h.1 row hrow)⟩
    · rw [h row hrow]
    · rw [List.eq_replicate_of_mem h, columnSum, List.map_replicate]
      induction rows.length with
      | zero => rfl
      | succ k ih => simpa [List.replicate_succ] using ih
  | cons bound columns ih =>
    simp only [grids, List.mem_flatMap, List.mem_map]
    refine ⟨fun hm => ?_, fun hm => ?_⟩
    · obtain ⟨xs, hxs, rows', hrows', rfl⟩ := hm
      obtain ⟨-, hlen, hs⟩ := (mem_fills bound.toNat_lt).1 hxs
      obtain ⟨hlen', hrow, hsum⟩ := ih.1 hrows'
      have hcol := columnSum_zipWith_cons (hlen.trans hlen'.symm)
      refine ⟨by simp [hlen, hlen'], length_of_mem_zipWith_cons hrow, fun g => ?_⟩
      cases g with
      | zero => exact (hcol 0).2.trans hs
      | succ g => exact (hcol g).1.trans (hsum g)
    · obtain ⟨hlen, hrow, hsum⟩ := hm
      obtain ⟨xs, rows', hl, hrow', rfl⟩ := exists_zipWith_cons hrow
      have hcol := columnSum_zipWith_cons hl
      rw [List.length_zipWith, hl, Nat.min_self] at hlen
      refine ⟨xs, (mem_fills bound.toNat_lt).2 ⟨hn, hl.trans hlen, (hcol 0).2.symm.trans (hsum 0)⟩,
        rows', ih.2 ⟨hlen, hrow', fun g => (hcol g).1.symm.trans (hsum (g + 1))⟩, rfl⟩

/-- The first columns of a table one after the other. -/
def columnEntries (rows : List (List UInt8)) (k : Nat) : List Nat :=
  (List.range k).flatMap fun g => rows.map fun row => (row.getD g 0).toNat

theorem columnEntries_zipWith_cons {xs : List UInt8} {rows : List (List UInt8)}
    (h : xs.length = rows.length) (k : Nat) :
    columnEntries (List.zipWith List.cons xs rows) (k + 1) =
      xs.map UInt8.toNat ++ columnEntries rows k := by
  have hfirst : (List.zipWith List.cons xs rows).map (fun row => (row.getD 0 0).toNat) =
      xs.map UInt8.toNat := by
    conv_rhs => rw [← (map_zipWith_cons h).1]
    rw [List.map_map]
    refine List.map_congr_left fun row _ => ?_
    cases row <;> rfl
  have hrest : ∀ g, (List.zipWith List.cons xs rows).map (fun row => (row.getD (g + 1) 0).toNat) =
      rows.map fun row => (row.getD g 0).toNat := by
    intro g
    conv_rhs => rw [← (map_zipWith_cons h).2]
    rw [List.map_map]
    refine List.map_congr_left fun row _ => ?_
    cases row <;> rfl
  simp only [columnEntries, List.range_succ_eq_map, List.flatMap_cons, List.flatMap_map, hfirst,
    hrest]

theorem pairwise_grids {columns : List UInt8} {n : Nat} (hn : 0 < n) :
    (grids columns n).Pairwise fun rows rows' =>
      columnEntries rows' columns.length < columnEntries rows columns.length := by
  induction columns with
  | nil => exact List.pairwise_singleton _ _
  | cons bound columns ih =>
    have hfill : ∀ xs ∈ fills n bound.toNat, xs.length = n := fun xs hxs =>
      ((mem_fills bound.toNat_lt).1 hxs).2.1
    have hread : ∀ xs ∈ fills n bound.toNat, ∀ rows ∈ grids columns n,
        columnEntries (List.zipWith List.cons xs rows) (columns.length + 1) =
          xs.map UInt8.toNat ++ columnEntries rows columns.length := fun xs hxs rows hrows =>
      columnEntries_zipWith_cons ((hfill xs hxs).trans ((mem_grids hn).1 hrows).1.symm) _
    rw [grids, List.pairwise_flatMap, List.length_cons]
    refine ⟨fun xs hxs => ?_, ?_⟩
    · refine List.pairwise_map.2 (ih.imp_of_mem fun {rows rows'} hrows hrows' hlt => ?_)
      rw [hread xs hxs rows hrows, hread xs hxs rows' hrows']
      exact List.append_left_lt hlt
    · refine (pairwise_fills bound.toNat_lt).imp_of_mem fun {xs xs'} hxs hxs' hlt => ?_
      intro table htable table' htable'
      obtain ⟨rows, hrows, rfl⟩ := List.mem_map.1 htable
      obtain ⟨rows', hrows', rfl⟩ := List.mem_map.1 htable'
      rw [hread xs hxs rows hrows, hread xs' hxs' rows' hrows']
      refine append_lt_append hlt ?_ _ _
      rw [List.length_map, List.length_map, hfill xs hxs, hfill xs' hxs']

theorem length_zipWith_grow {shares : List Share} {xs : List UInt8} {n : Nat}
    (hs : shares.length = n) (hx : xs.length = n) :
    (List.zipWith Share.grow shares xs).length = n := by
  rw [List.length_zipWith, hs, hx, Nat.min_self]

/-- Columns are given one after the other. -/
theorem zipWith_giveRow_cons {shares : List Share} {xs : List UInt8} {rows : List (List UInt8)}
    (h : xs.length = rows.length) :
    List.zipWith giveRow (List.zipWith Share.grow shares xs) rows =
      List.zipWith giveRow shares (List.zipWith List.cons xs rows) := by
  induction xs generalizing shares rows with
  | nil => simp
  | cons x xs ih =>
    cases rows with
    | nil => cases h
    | cons row rows =>
      cases shares with
      | nil => rfl
      | cons s shares =>
        simp only [List.zipWith_cons_cons, ih (Nat.succ.inj h)]
        rfl

theorem zipWith_giveRow_nil (shares : List Share) :
    List.zipWith giveRow shares (List.replicate shares.length []) = shares := by
  induction shares with
  | nil => rfl
  | cons s shares ih =>
    rw [List.length_cons, List.replicate_succ, List.zipWith_cons_cons, ih]
    rfl

/-- A table cannot make up for more than it holds. -/
theorem totalMissing_le_giveRow {columns : List UInt8} {shares : List Share} {n : Nat} (hn : 0 < n)
    (hs : shares.length = n) {rows : List (List UInt8)} (h : rows ∈ grids columns n) :
    totalMissing shares ≤
      totalMissing (List.zipWith giveRow shares rows) + total (columns.map UInt8.toNat) := by
  induction columns generalizing shares rows with
  | nil =>
    obtain rfl := List.mem_singleton.1 h
    rw [← hs, zipWith_giveRow_nil]
    exact Nat.le_add_right _ _
  | cons bound columns ih =>
    simp only [grids, List.mem_flatMap, List.mem_map] at h
    obtain ⟨xs, hxs, rows, hrows, rfl⟩ := h
    obtain ⟨-, hlen, hsum⟩ := (mem_fills bound.toNat_lt).1 hxs
    have h1 := totalMissing_le_grow (hs.trans hlen.symm)
    have h2 := ih (length_zipWith_grow hs hlen) hrows
    rw [zipWith_giveRow_cons (hlen.trans ((mem_grids hn).1 hrows).1.symm)] at h2
    simp only [List.map_cons, total_cons]
    omega

/-- The shares after a table was handed out, if each of them has then the degree that it has to
reach. -/
def served {α : Type} (spec : List Share → List α) (shares : List Share)
    (rows : List (List UInt8)) : List α :=
  if Reached (List.zipWith giveRow shares rows) then spec (List.zipWith giveRow shares rows) else []

section
variable {α : Type} {next : List Share → Walk α} (spec : List Share → List α)

theorem yields_fillColumns {columns : List UInt8} {shares : List Share} {n : Nat} (hn : 0 < n)
    (hs : shares.length = n) (hreached : columns = [] → Reached shares)
    (hnext : ∀ rows ∈ grids columns n, ∀ row, row = List.zipWith giveRow shares rows →
      Reached row → Yields (next row) (spec row)) :
    Yields
      (fillColumns next columns shares ⟨total (columns.map UInt8.toNat), totalMissing shares⟩)
      ((grids columns n).flatMap (served spec shares)) := by
  induction columns generalizing shares with
  | nil =>
    have hr := hreached rfl
    have hmem : List.replicate n [] ∈ grids [] n := List.mem_singleton.2 rfl
    have hsame : List.zipWith giveRow shares (List.replicate n []) = shares := by
      rw [← hs, zipWith_giveRow_nil]
    rw [fillColumns, grids, List.flatMap_singleton, served, hsame, if_pos hr]
    exact Yields.poll (hnext _ hmem shares hsame.symm hr)
  | cons bound columns ih =>
    have hlen : ∀ xs ∈ fills shares.length bound.toNat, xs.length = n :=
      fun xs hxs => ((mem_fills bound.toNat_lt).1 hxs).2.1.trans hs
    have hgive : ∀ xs ∈ fills shares.length bound.toNat, ∀ rows ∈ grids columns n,
        List.zipWith giveRow (List.zipWith Share.grow shares xs) rows =
          List.zipWith giveRow shares (List.zipWith List.cons xs rows) :=
      fun xs hxs rows hrows =>
        zipWith_giveRow_cons ((hlen xs hxs).trans ((mem_grids hn).1 hrows).1.symm)
    refine (yields_column (fun row => (grids columns n).flatMap (served spec row)) ?_ ?_).congr ?_
    · -- the later columns, after this one
      intro xs hxs hshort
      refine ih (length_zipWith_grow hs (hlen xs hxs)) ?_ ?_
      · intro hc
        exact Classical.byContradiction fun hr => hshort (.inr ⟨by simp [hc], hr⟩)
      · rintro rows hrows row rfl hr
        rw [hgive xs hxs rows hrows] at hr ⊢
        refine hnext _ ?_ _ rfl hr
        exact List.mem_flatMap.2 ⟨xs, hs ▸ hxs, List.mem_map.2 ⟨rows, hrows, rfl⟩⟩
    · -- no later column helps where a share is short
      intro xs hxs hshort
      refine List.flatMap_eq_nil_iff.2 fun rows hrows => if_neg fun hr => ?_
      have hle := totalMissing_le_giveRow hn (length_zipWith_grow hs (hlen xs hxs)) hrows
      rw [totalMissing_eq_zero hr] at hle
      rcases hshort with hlater | ⟨hlast, hnr⟩
      · omega
      · obtain rfl : columns = [] := by simpa using hlast
        obtain rfl := List.mem_singleton.1 hrows
        rw [← length_zipWith_grow hs (hlen xs hxs), zipWith_giveRow_nil] at hr
        exact hnr hr
    · rw [grids, List.flatMap_assoc, hs]
      apply List.flatMap_congr
      intro xs hxs
      rw [List.flatMap_map]
      apply List.flatMap_congr
      intro rows hrows
      rw [served, served, hgive xs (hs ▸ hxs) rows hrows]

end

/-! ## Splits -/

/-- What a variable has before the search. -/
def emptyShare (least : Nat) : Share := ⟨[], 0, least⟩

theorem giveRow_eq (s : Share) (row : List UInt8) :
    giveRow s row = ⟨row.reverse ++ s.taken, s.degree + total (row.map UInt8.toNat), s.least⟩ := by
  induction row generalizing s with
  | nil => rfl
  | cons x row ih =>
    rw [giveRow, List.foldl_cons, ← giveRow, ih]
    simp [Share.grow, Nat.add_assoc]

theorem multidegree_giveRow (d : Nat) (row : List UInt8) :
    (giveRow (emptyShare d) row).multidegree = ⟨row⟩ := by
  rw [giveRow_eq, Share.multidegree, emptyShare, List.append_nil, List.reverse_reverse]

theorem map_multidegree {least : List Nat} {rows : List (List UInt8)}
    (h : least.length = rows.length) :
    (List.zipWith giveRow (least.map emptyShare) rows).map Share.multidegree =
      rows.map Multidegree.mk := by
  induction least generalizing rows with
  | nil =>
    obtain rfl := List.length_eq_zero_iff.1 h.symm
    rfl
  | cons d least ih =>
    cases rows with
    | nil => cases h
    | cons row rows =>
      simp only [List.map_cons, List.zipWith_cons_cons, multidegree_giveRow,
        ih (Nat.succ.inj h)]

theorem reached_iff {least : List Nat} {rows : List (List UInt8)}
    (h : least.length = rows.length) :
    Reached (List.zipWith giveRow (least.map emptyShare) rows) ↔
      List.Forall₂ (fun d row => d ≤ (Multidegree.mk row).degree) least rows := by
  induction least generalizing rows with
  | nil =>
    obtain rfl := List.length_eq_zero_iff.1 h.symm
    simp [Reached]
  | cons d least ih =>
    cases rows with
    | nil => cases h
    | cons row rows =>
      rw [List.forall₂_cons, ← ih (Nat.succ.inj h), List.map_cons,
        List.zipWith_cons_cons, Reached, List.forall_mem_cons, giveRow_eq]
      simp only [emptyShare, Nat.zero_add]
      exact Iff.rfl

section
variable {t : Table} {target : Name} {m : Multidegree}

/-- The name of a row, which has one if the row is below the target. -/
def rowName (t : Table) (m : Multidegree) : Name := (t.name? m).getD 0

/-- The rows of a table whose columns add up to a multidegree below the target are below it. -/
theorem entry_rowName (hm : t.entry target = .ok m) {n : Nat} (hn : 0 < n)
    {rows : List (List UInt8)} (hrows : rows ∈ grids m.components n) {row : List UInt8}
    (hrow : row ∈ rows) : t.entry (rowName t ⟨row⟩) = .ok ⟨row⟩ := by
  obtain ⟨-, hlen, hsum⟩ := (mem_grids hn).1 hrows
  have hle : (Multidegree.mk row).le t.target = true := by
    refine Multidegree.le_iff.2 ⟨(hlen row hrow).trans (Table.generators_of_entry hm), fun g => ?_⟩
    have h1 : (row.getD g 0).toNat ≤ columnSum rows g := le_total (List.mem_map.2 ⟨row, hrow, rfl⟩)
    have h2 := (Multidegree.le_iff.1 (Table.le_of_entry hm)).2 g
    rw [hsum g] at h1
    exact Nat.le_trans h1 h2
  obtain ⟨k, hk⟩ := Table.exists_name?_of_le hle
  rw [rowName, hk]
  exact Table.name?_eq_some_iff.1 hk

/-- The search yields the names of the rows of every table that gives each variable enough. -/
theorem yields_splits (hm : t.entry target = .ok m) {least : List Nat} (hne : least ≠ []) :
    Yields (splits t target least)
      ((grids m.components least.length).flatMap fun rows =>
        if Reached (List.zipWith giveRow (least.map emptyShare) rows)
        then [rows.map fun row => rowName t ⟨row⟩] else []) := by
  have hn : 0 < least.length := List.length_pos_iff.2 hne
  have hcols : m.components ≠ [] := by
    have := t.generators_pos
    rw [← Table.generators_of_entry hm] at this
    exact List.length_pos_iff.1 this
  have hlen : ∀ rows ∈ grids m.components least.length, least.length = rows.length :=
    fun rows hrows => ((mem_grids hn).1 hrows).1.symm
  have hstart : totalMissing (least.map emptyShare) = total least := by
    simp [totalMissing, Function.comp_def, Share.missing, emptyShare]
  apply Yields.attempt hm
  rw [show least.isEmpty = false by simpa using hne, Bool.false_or]
  split
  · -- the variables ask for more than there is
    rename_i hsum
    refine Yields.done.congr (Eq.symm (List.flatMap_eq_nil_iff.2 fun rows hrows => ?_))
    refine if_neg fun hr => absurd (of_decide_eq_true hsum) ?_
    have hle := totalMissing_le_giveRow hn (List.length_map emptyShare) hrows
    rw [hstart, totalMissing_eq_zero hr, Nat.zero_add] at hle
    exact Nat.not_lt.2 hle
  · rw [← hstart]
    show Yields (fillColumns _ _ (least.map emptyShare) _) _
    refine (yields_fillColumns (fun shares => [shares.map fun s => rowName t s.multidegree]) hn
      (List.length_map _) (fun h => absurd h hcols) ?_).congr ?_
    rotate_left
    · apply List.flatMap_congr
      intro rows hrows
      rw [served]
      congr 1
      have hmap := congrArg (List.map (rowName t)) (map_multidegree (hlen rows hrows))
      simpa only [List.map_map, Function.comp_def] using congrArg (fun l => [l]) hmap
    · rintro rows hrows row rfl -
      refine Yields.attempt (mapM_eq_ok_map fun s hs => ?_) (Yields.visit _)
      have hs' := List.mem_map_of_mem (f := Share.multidegree) hs
      rw [map_multidegree (hlen rows hrows)] at hs'
      obtain ⟨row, hrow, he⟩ := List.mem_map.1 hs'
      rw [← he, Table.name?_eq_some_iff.2 (entry_rowName hm hn hrows hrow)]

/-- Without variables, or if they ask for more than there is, a search ends where it starts. -/
theorem splits_eq_done (ht : t.contains target = true) {least : List Nat}
    (h : least = [] ∨ t.degreeOf target < least.sum) : splits t target least = .done := by
  obtain ⟨m, hm⟩ := Table.contains_iff.1 ht
  have hdone : (least.isEmpty || decide (m.degree < total least)) = true := by
    rw [← Table.degreeOf_of_entry hm, total_eq_sum]
    simpa using h
  simp only [splits, hm, Walk.attempt, hdone, if_true]

/-- Without variables there is no split. -/
theorem yields_splits_nil (hm : t.entry target = .ok m) : Yields (splits t target []) [] :=
  Yields.attempt hm Yields.done

theorem failure?_splits (ht : t.contains target = true) (least : List Nat) :
    (splits t target least).failure? = none := by
  obtain ⟨m, hm⟩ := Table.contains_iff.1 ht
  cases least with
  | nil => exact (yields_splits_nil hm).failure?
  | cons d least => exact (yields_splits hm (List.cons_ne_nil d least)).failure?

/-- The components of a name. -/
def nameRow (t : Table) (n : Name) : List UInt8 :=
  match t.entry n with
  | .ok m => m.components
  | .error _ => []

/-- The components of a split one generator after the other, those of the first generator for all
variables in front. -/
def columnMajor (t : Table) (split : List Name) : List Nat :=
  (List.range t.target.generators).flatMap fun g => split.map (t.count · g)

/-- The names of a table's rows have the entries of the table. -/
theorem columnMajor_rowNames (hm : t.entry target = .ok m) {n : Nat} (hn : 0 < n)
    {rows : List (List UInt8)} (hrows : rows ∈ grids m.components n) :
    columnMajor t (rows.map fun row => rowName t ⟨row⟩) = columnEntries rows m.components.length := by
  have hcolumns : t.target.generators = m.components.length := (Table.generators_of_entry hm).symm
  rw [columnMajor, columnEntries, hcolumns]
  refine List.flatMap_congr fun g _ => ?_
  rw [List.map_map]
  refine List.map_congr_left fun row hrow => ?_
  rw [Function.comp_apply, Table.count_of_entry (entry_rowName hm hn hrows hrow)]
  rfl

theorem pairwise_splits (ht : t.contains target = true) (least : List Nat) :
    (splits t target least).toList.Pairwise fun split split' =>
      columnMajor t split' < columnMajor t split := by
  obtain ⟨m, hm⟩ := Table.contains_iff.1 ht
  by_cases hne : least = []
  · subst hne
    rw [(yields_splits_nil hm).toList]
    exact List.Pairwise.nil
  have hn : 0 < least.length := List.length_pos_iff.2 hne
  rw [(yields_splits hm hne).toList, List.pairwise_flatMap]
  refine ⟨fun rows _ => ?_, ?_⟩
  · split
    · exact List.pairwise_singleton _ _
    · exact List.Pairwise.nil
  · refine (pairwise_grids hn).imp_of_mem fun {rows rows'} hrows hrows' hlt => ?_
    intro split hsplit split' hsplit'
    rw [List.mem_ite_nil_right, List.mem_singleton] at hsplit hsplit'
    rw [hsplit.2, hsplit'.2, columnMajor_rowNames hm hn hrows, columnMajor_rowNames hm hn hrows']
    exact hlt

theorem nodup_splits (ht : t.contains target = true) (least : List Nat) :
    (splits t target least).toList.Nodup := by
  refine (pairwise_splits ht least).imp ?_
  rintro split _ hlt rfl
  exact List.lt_irrefl _ hlt

/-- The degrees and the sum of a split are those of the rows that its names stand for. -/
theorem entries_spec {split : List Name} {rows : List (List UInt8)}
    (h : List.Forall₂ (fun n row => t.entry n = .ok ⟨row⟩) split rows) :
    split.map t.degreeOf = rows.map (fun row => (Multidegree.mk row).degree) ∧
      (split.map t.count).sum = columnSum rows := by
  induction h with
  | nil => exact ⟨rfl, rfl⟩
  | cons he _ ih =>
    obtain ⟨hd, hs⟩ := ih
    refine ⟨?_, ?_⟩
    · rw [List.map_cons, List.map_cons, hd, Table.degreeOf_of_entry he]
    · rw [List.map_cons, List.sum_cons, hs, Table.count_of_entry he]
      rfl

/-- A split gives every variable a name of at least the degree that it asks for, all of them with
the sum of the target. -/
theorem mem_splits (ht : t.contains target = true) {least : List Nat} {split : List Name} :
    split ∈ (splits t target least).toList ↔ least ≠ [] ∧ (∀ n ∈ split, t.contains n = true) ∧
      List.Forall₂ (· ≤ ·) least (split.map t.degreeOf) ∧
      (split.map t.count).sum = t.count target := by
  obtain ⟨m, hm⟩ := Table.contains_iff.1 ht
  by_cases hne : least = []
  · subst hne
    simp [(yields_splits_nil hm).toList]
  have hn : 0 < least.length := List.length_pos_iff.2 hne
  simp only [(yields_splits hm hne).toList, List.mem_flatMap, List.mem_ite_nil_right,
    List.mem_singleton, hne, not_false_eq_true, true_and, ne_eq]
  refine ⟨fun h => ?_, fun h => ?_⟩
  · obtain ⟨rows, hrows, hr, rfl⟩ := h
    obtain ⟨hlen, -, hsum⟩ := (mem_grids hn).1 hrows
    have he : List.Forall₂ (fun n row => t.entry n = .ok ⟨row⟩)
        (rows.map fun row => rowName t ⟨row⟩) rows :=
      List.forall₂_map_left_iff.2 (List.forall₂_same.2 fun row hrow =>
        entry_rowName hm hn hrows hrow)
    obtain ⟨hd, hs⟩ := entries_spec he
    rw [hd, hs, Table.count_of_entry hm]
    refine ⟨fun n hn' => ?_, List.forall₂_map_right_iff.2 ((reached_iff hlen.symm).1 hr),
      funext hsum⟩
    obtain ⟨row, hrow, rfl⟩ := List.mem_map.1 hn'
    exact Table.contains_iff.2 ⟨_, entry_rowName hm hn hrows hrow⟩
  · obtain ⟨hnames, hdeg, hsum⟩ := h
    have hentry : ∀ n ∈ split, t.entry n = .ok ⟨nameRow t n⟩ := by
      intro n hn'
      obtain ⟨m', hm'⟩ := Table.contains_iff.1 (hnames n hn')
      rw [nameRow, hm']
    have he : List.Forall₂ (fun n row => t.entry n = .ok ⟨row⟩) split (split.map (nameRow t)) :=
      List.forall₂_map_right_iff.2 (List.forall₂_same.2 hentry)
    obtain ⟨hd, hs⟩ := entries_spec he
    rw [hs, Table.count_of_entry hm] at hsum
    rw [hd, List.forall₂_map_right_iff] at hdeg
    refine ⟨split.map (nameRow t), (mem_grids hn).2 ⟨hdeg.length_eq.symm, ?_, congrFun hsum⟩,
      (reached_iff hdeg.length_eq).2 hdeg, ?_⟩
    · intro row hrow
      obtain ⟨n, hn', rfl⟩ := List.mem_map.1 hrow
      exact (Table.generators_of_entry (hentry n hn')).trans (Table.generators_of_entry hm).symm
    · rw [List.map_map]
      refine ((List.map_congr_left fun n hn' => ?_).trans (List.map_id split)).symm
      rw [Function.comp_apply, rowName, Table.name?_eq_some_iff.2 (hentry n hn')]
      rfl

end

end Nonassoc.Search
