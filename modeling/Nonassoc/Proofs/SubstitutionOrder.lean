import Mathlib.Algebra.BigOperators.Group.List.Basic
import Nonassoc.Proofs.Checked.Substitutions
import Nonassoc.Proofs.Visits

/-!
# The order of substitutions

The substitutions of a partition come in strictly increasing lexicographic order of their elements,
read one variable after the other: the elements of a multidegree ascend, and what is chosen for an
earlier slot comes first in the reading (`pairwise_substitutionLists`). Every slot is filled in as
many ways as there are elements of its multidegree, whatever is in the other slots
(`length_substitutionLists`).

Main result: `substitutions_enumerated`, which also says what is found, and that a search with all
cells in one list shows its visitor the same.
-/

namespace Nonassoc.Search

open Multidegree (Name Table)
open Checked (SlotTable)

/-- A substitution has the slots of a partition, and in each of them an element of the slot's
multidegree. -/
structure IsFilling (b : Basis) (p : Partition) (s : Substitution) : Prop where
  lengths : s.map List.length = p.map List.length
  slots : ∀ v names, p[v]? = some names → ∀ k n, names[k]? = some n →
    ∃ x, s.slot v k = .ok x ∧ b.nameOf x = .ok n

theorem slot_eq_ok {s : Substitution} {v k : Nat} {row : List BasisId} (hrow : s[v]? = some row)
    {x : BasisId} : s.slot v k = .ok x ↔ row[k]? = some x := by
  rw [Substitution.slot, hrow, Option.bind_some]
  cases row[k]? <;> simp

theorem isFilling_iff {b : Basis} {p : Partition} {s : Substitution} :
    IsFilling b p s ↔
      List.Forall₂ (List.Forall₂ fun x n => b.nameOf x = .ok n) s p := by
  constructor
  · intro h
    have hlength : s.length = p.length := by simpa using congrArg List.length h.lengths
    refine List.forall₂_iff_get.2 ⟨hlength, fun v hv hv' => ?_⟩
    have hrow : s[v]? = some s[v] := List.getElem?_eq_getElem hv
    have hnames : p[v]? = some p[v] := List.getElem?_eq_getElem hv'
    have hlengths := congrArg (·[v]?) h.lengths
    simp only [List.getElem?_map, hrow, hnames, Option.map_some, Option.some_inj] at hlengths
    refine List.forall₂_iff_get.2 ⟨hlengths, fun k hk hk' => ?_⟩
    obtain ⟨x, hx, hname⟩ := h.slots v _ hnames k _ (List.getElem?_eq_getElem hk')
    have hslot := (List.getElem?_eq_getElem hk).symm.trans ((slot_eq_ok hrow).1 hx)
    obtain rfl := Option.some.inj hslot
    exact hname
  · intro h
    refine ⟨?_, fun v names hnames k n hn => ?_⟩
    · exact List.forall₂_eq_eq_eq ▸
        List.forall₂_map_left_iff.2 (List.forall₂_map_right_iff.2 (h.imp fun _ _ hr => hr.length_eq))
    · obtain ⟨hlength, hrows⟩ := List.forall₂_iff_get.1 h
      obtain ⟨hv, rfl⟩ := List.getElem?_eq_some_iff.1 hnames
      obtain ⟨hlengths, hslots⟩ := List.forall₂_iff_get.1 (hrows v (hlength ▸ hv) hv)
      obtain ⟨hk, rfl⟩ := List.getElem?_eq_some_iff.1 hn
      exact ⟨_, (slot_eq_ok (List.getElem?_eq_getElem (hlength ▸ hv))).2
        (List.getElem?_eq_getElem (hlengths ▸ hk)), hslots k (hlengths ▸ hk) hk⟩

theorem mem_substitutionLists {t : Table} {b : Basis} (hb : b.Built t) {p : Partition}
    {s : Substitution} : s ∈ substitutionLists b p ↔ IsFilling b p s := by
  simp only [substitutionLists, mem_choices_map, hb.mem_ofName, isFilling_iff]

theorem nodup_substitutionLists (b : Basis) (p : Partition) : (substitutionLists b p).Nodup :=
  (yields_substitutions p).toList ▸ nodup_substitutions p

theorem pairwise_substitutionLists (b : Basis) (p : Partition) :
    (substitutionLists b p).Pairwise fun s s' => s.flatten < s'.flatten := by
  refine pairwise_choices fun rows hrows => ?_
  obtain ⟨names, -, rfl⟩ := List.mem_map.1 hrows
  refine ⟨pairwise_lt_choices fun xs hxs => ?_, names.length, fun row hrow => ?_⟩
  · obtain ⟨n, -, rfl⟩ := List.mem_map.1 hxs
    exact List.pairwise_lt_range'
  · exact (mem_choices_map.1 hrow).length_eq

theorem length_substitutionLists (b : Basis) (p : Partition) :
    (substitutionLists b p).length = (p.flatten.map b.countOfName).prod := by
  have hrow : ∀ names : List Name,
      (choices (names.map b.ofName)).length = (names.map b.countOfName).prod := by
    intro names
    rw [length_choices, List.map_map]
    exact congrArg List.prod (List.map_congr_left fun n _ => List.length_range')
  rw [substitutionLists, length_choices, List.map_map, List.map_flatten, List.prod_flatten,
    List.map_map]
  exact congrArg List.prod (List.map_congr_left fun names _ => hrow names)

/-- What is read from a table is what a substitution has. -/
structure Shows (x : SlotTable) (s : Substitution) : Prop where
  row : ∀ v row, s[v]? = some row → x.row v = .ok row
  get : ∀ v k e, s.slot v k = .ok e → x.get v k = .ok e

theorem shows_ofSubstitution {s : Substitution}
    (hwords : s.length * (s.map List.length).foldr max 0 ≤ maximalCount) :
    Shows (.ofSubstitution s) s := by
  rw [← List.length_map (f := List.length)] at hwords
  refine ⟨fun v row hrow => SlotTable.row_ofSubstitution hwords hrow, fun v k e he => ?_⟩
  rw [SlotTable.get_ofSubstitution hwords, Checked.readerOf, he]
  rfl

/-- Whatever was entered into the basis, the search for substitutions visits each way to fill the
slots of a partition once, in strictly increasing lexicographic order of the elements read variable by
variable, and there are as many ways as the product of the numbers of elements for the slots. If the
cells fit in memory, a search that overwrites them shows its visitor the same: each time they are
those of the substitution alone, whatever was in them before. -/
theorem substitutions_enumerated (t : Table) (operations : List Basis.Operation) (p : Partition) :
    ∃ l, (substitutions (Basis.run t operations) p).Enumerates l ∧
      (∀ s, s ∈ l ↔ IsFilling (Basis.run t operations) p s) ∧ l.Nodup ∧
      l.Pairwise (fun s s' => s.flatten < s'.flatten) ∧
      l.length = (p.flatten.map (Basis.run t operations).countOfName).prod ∧
      ((Basis.run t operations).size ≤ maximalCount →
        p.length * (p.map List.length).foldr max 0 ≤ wordCapacity →
          (∀ s ∈ l, Shows (.ofSubstitution s) s) ∧
          ∀ {σ : Type} (visitor : SlotTable → Token → σ → Walk.Run σ) (token : Token) (st : σ),
            Checked.tables (Basis.run t operations) p visitor token st =
              (substitutions (Basis.run t operations) p).forEach
                (fun s => visitor (.ofSubstitution s)) token st) := by
  have hb := Basis.built_run t operations
  have hmem : ∀ s, s ∈ substitutionLists (Basis.run t operations) p ↔
      IsFilling (Basis.run t operations) p s := fun s => mem_substitutionLists hb
  refine ⟨_, (yields_substitutions p).enumerates, hmem, nodup_substitutionLists _ p,
    pairwise_substitutionLists _ p, length_substitutionLists _ p, fun hsize hcells => ⟨?_, ?_⟩⟩
  · intro s hs
    have hlengths := ((hmem s).1 hs).lengths
    have hlength : s.length = p.length := by simpa using congrArg List.length hlengths
    refine shows_ofSubstitution ?_
    rw [hlengths, hlength]
    exact hcells.trans (by decide)
  · exact fun visitor token st => Checked.tables_eq hb hsize hcells visitor token st

/-- Two generators of the same multidegree, in three slots of two variables. -/
theorem substitutions_enumerated_pair :
    ∃ t, Table.ofTarget ⟨[2]⟩ = .ok t ∧ ∃ b, Basis.run t [.push none 1, .push none 1] = b ∧
      ∃ l, (substitutions b [[1], [1, 1]]).Enumerates l ∧ l.length = 8 ∧
        [[0], [1, 0]] ∈ l ∧ [[0], [2, 0]] ∉ l ∧
        (∀ s ∈ l, Shows (.ofSubstitution s) s) ∧
        ∀ {σ : Type} (visitor : SlotTable → Token → σ → Walk.Run σ) (token : Token) (st : σ),
          Checked.tables b [[1], [1, 1]] visitor token st =
            (substitutions b [[1], [1, 1]]).forEach
              (fun s => visitor (.ofSubstitution s)) token st := by
  obtain ⟨t, ht, hsize, hcount, hnames⟩ : ∃ t, Table.ofTarget ⟨[2]⟩ = .ok t ∧
      (Basis.run t [.push none 1, .push none 1]).size ≤ maximalCount ∧
      (Basis.run t [.push none 1, .push none 1]).countOfName 1 = 2 ∧
      ((Basis.run t [.push none 1, .push none 1]).nameOf 0 = .ok 1 ∧
        (Basis.run t [.push none 1, .push none 1]).nameOf 1 = .ok 1 ∧
        (Basis.run t [.push none 1, .push none 1]).nameOf 2 ≠ .ok 1) :=
    ⟨_, rfl, by decide, by decide, by decide⟩
  obtain ⟨l, hl, hmem, -, -, hlength, hmemory⟩ :=
    substitutions_enumerated t [.push none 1, .push none 1] [[1], [1, 1]]
  obtain ⟨hshows, htables⟩ := hmemory hsize (by decide)
  refine ⟨t, ht, _, rfl, l, hl, ?_, (hmem _).2 (isFilling_iff.2 ?_), fun h => ?_, hshows, htables⟩
  · simpa [hcount] using hlength
  · simp [hnames]
  · have hfilling := isFilling_iff.1 ((hmem _).1 h)
    simp [hnames] at hfilling

end Nonassoc.Search
