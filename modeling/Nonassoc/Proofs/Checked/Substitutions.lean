import Nonassoc.Proofs.Blocks
import Nonassoc.Proofs.Checked.Programs

/-!
# Filling the slots of a partition in memory

`Checked.substitutions` searches for the substitutions of a partition with one list of cells, in which
every variable has room for as many elements as the longest one has slots. The elements for a slot
are taken from the first one of its multidegree to the next one again and again. A cell that was
filled is not cleared; it is overwritten before it is read again, so only the cells in front of the
search are known (`Layout.Holds`). `Checked.tables_eq`: this is `Search.substitutions`, and the
visitor sees all cells as the substitution alone determines them. What is read from them is what the
substitution has in its slots (`SlotTable.get_ofSubstitution`, `SlotTable.row_ofSubstitution`).
-/

namespace Nonassoc.Checked

open Multidegree (Name Table)
open Search (Partition Substitution fillRow fillRows)
open Walk (Run)

/-! ## Cells -/

/-- Where the cells of the slots are: how many slots each variable has, and how far the first cells of
two variables that follow each other are apart. -/
structure Layout where
  lens : List Nat
  stride : Nat

namespace Layout

/-- Room for the slots of a partition. -/
def ofPartition (p : Partition) : Layout := ⟨p.map List.length, (p.map List.length).foldr max 0⟩

/-- The place of a slot's cell. -/
def index (l : Layout) (var slot : Nat) : Except Failure Nat := do
  addWord (← mulWord var l.stride) slot

/-- Puts an element into a slot. -/
def set (l : Layout) (var slot : Nat) (x : BasisId) (cells : List BasisId) :
    Except Failure (List BasisId) := do
  change cells (← l.index var slot) fun _ => .ok x

end Layout

/-- Looks up the element in a slot of a variable. -/
abbrev Reader := (var slot : Nat) → Except Failure BasisId

/-- Reads a cell, which has to be that of a slot that the variable has. -/
def Layout.reader (l : Layout) (cells : List BasisId) : Reader := fun var slot => do
  if slot < (← cell l.lens var) then cell cells (← l.index var slot)
  else throw (.fault .index)

/-- The cells of all slots with their layout. -/
structure SlotTable where
  layout : Layout
  cells : List BasisId

namespace SlotTable

/-- The element in a slot of a variable. -/
def get (x : SlotTable) : Reader := x.layout.reader x.cells

/-- The elements of a variable, the cells from its first one on. -/
def row (x : SlotTable) (var : Nat) : Except Failure (List BasisId) := do
  let start ← mulWord var x.layout.stride
  let past ← addWord start (← cell x.layout.lens var)
  if past ≤ x.cells.length then return (x.cells.drop start).take (past - start)
  else throw (.fault .index)

end SlotTable

/-! ## The search -/

section
variable {μ σ : Type}

/-- The element after `x` of the same multidegree. -/
def nextElement (b : Basis) (x : BasisId) : Except Failure (Option BasisId) := do
  let _ ← addWord x 1
  (b.nextOfName? x).mapError .fault

theorem nextElement_eq_some {b : Basis} {x y : BasisId} (h : nextElement b x = .ok (some y)) :
    y = x + 1 ∧ x < b.size := by
  obtain ⟨_, -, h⟩ := bind_eq_ok.1 h
  obtain ⟨n, hn, h⟩ := bind_eq_ok.1 (mapError_eq_ok.1 h)
  refine ⟨?_, Basis.lt_size_of_nameOf hn⟩
  split at h
  · split at h <;> cases h
    rfl
  · cases h

/-- How far an element is from the end of the basis. -/
def remaining (b : Basis) : Option BasisId → Nat
  | none => 0
  | some x => b.size - x + 1

theorem remaining_lt {b : Basis} {x : BasisId} {next : Option BasisId}
    (h : nextElement b x = .ok next) : remaining b next < remaining b (some x) := by
  cases next with
  | none => exact Nat.succ_pos _
  | some y =>
    obtain ⟨rfl, hlt⟩ := nextElement_eq_some h
    exact Nat.succ_lt_succ (Nat.sub_lt_sub_left hlt (Nat.lt_succ_self x))

/-- Does the same for an element and those that come after it in its multidegree. -/
def eachElement (b : Basis) (body : BasisId → Program μ σ) (next : Option BasisId) : Program μ σ :=
  match next with
  | none => .skip
  | some x =>
    (body x).andThen <|
      match _h : nextElement b x with
      | .error e => .stop e
      | .ok next => eachElement b body next
termination_by remaining b next
decreasing_by exact remaining_lt _h

end

section
variable {σ : Type} (b : Basis) (p : Partition) (l : Layout)
  (visitor : List BasisId → Token → σ → Run σ)

/-- Fills the slots from one on, and calls the visitor once all are filled. -/
def fillCells (var slot : Nat) : Program (List BasisId) σ :=
  .poll <|
    if var = l.lens.length then .visit visitor
    else if h : var < l.lens.length then
      if slot = l.lens[var] then fillCells (var + 1) 0
      else if slot < l.lens[var] then
        .check (fun _ => cell p var) fun names =>
        .check (fun _ => cell names slot) fun name =>
          eachElement b (fun x => .between (l.set var slot x) .ok <| fillCells var (slot + 1))
            (b.firstOfName? name)
      else .stop (.fault .index)
    else .stop (.fault .index)
termination_by (l.lens.length - var, (l.lens[var]?).getD 0 - slot)
decreasing_by
  · exact Prod.Lex.left _ _ (by omega)
  · refine Prod.Lex.right _ ?_
    rw [List.getElem?_eq_getElem h, Option.getD_some]
    omega

end

/-- The substitutions of a partition as tables in memory. All variables get room for the longest
one. -/
def tables {σ : Type} (b : Basis) (p : Partition) (visitor : SlotTable → Token → σ → Run σ)
    (token : Token) (s : σ) : Run σ :=
  let l := Layout.ofPartition p
  match mulWord l.stride l.lens.length with
  | .error e => ⟨.error e, token, s⟩
  | .ok size =>
    if size ≤ wordCapacity then
      (fillCells b p l (fun cells => visitor ⟨l, cells⟩) 0 0).start (List.replicate size 0) token s
    else ⟨.error (.fault .memory), token, s⟩

/-- The substitutions of a partition, in memory, of which the visitor looks up single elements. -/
def substitutions {σ : Type} (b : Basis) (p : Partition) (visitor : Reader → Token → σ → Run σ)
    (token : Token) (s : σ) : Run σ :=
  let l := Layout.ofPartition p
  match mulWord l.stride l.lens.length with
  | .error e => ⟨.error e, token, s⟩
  | .ok size =>
    if size ≤ wordCapacity then
      (fillCells b p l (fun cells => visitor (l.reader cells)) 0 0).start (List.replicate size 0)
        token s
    else ⟨.error (.fault .memory), token, s⟩

theorem substitutions_eq_tables {σ : Type} (b : Basis) (p : Partition)
    (visitor : Reader → Token → σ → Run σ) (token : Token) (s : σ) :
    substitutions b p visitor token s = tables b p (fun x => visitor x.get) token s := rfl

/-! ## What the cells hold -/

/-- The cells hold the elements of a substitution that may not be complete, each at its place. The
cells behind the slots of a variable are as they were before the search. -/
structure Layout.Holds (l : Layout) (s : Substitution) (cells : List BasisId) : Prop where
  length : cells.length = l.lens.length * l.stride
  slots : ∀ v row, s[v]? = some row → ∀ k x, row[k]? = some x → cells[v * l.stride + k]? = some x
  unused : ∀ v n, l.lens[v]? = some n → ∀ k, n ≤ k → k < l.stride →
    cells[v * l.stride + k]? = some 0

namespace Layout

variable {l : Layout} {cells : List BasisId}

theorem index_lt {v n k : Nat} (hv : v < n) (hk : k < l.stride) : v * l.stride + k < n * l.stride :=
  calc v * l.stride + k < v * l.stride + l.stride := Nat.add_lt_add_left hk _
    _ = (v + 1) * l.stride := (Nat.succ_mul ..).symm
    _ ≤ n * l.stride := Nat.mul_le_mul_right _ hv

section
variable (hwords : l.lens.length * l.stride ≤ maximalCount)
include hwords

theorem index_eq_ok {v k : Nat} (hv : v < l.lens.length) (hk : k < l.stride) :
    l.index v k = .ok (v * l.stride + k) := by
  have hlt := index_lt hv hk
  rw [index, mulWord_eq_ok (by omega)]
  exact addWord_eq_ok (by omega)

/-- An element is put behind those that are known. -/
theorem Holds.exists_set {done : Substitution} {row : List BasisId} {n : Nat}
    (h : l.Holds (done ++ [row]) cells) (hdone : ∀ r ∈ done, r.length ≤ l.stride)
    (hlen : l.lens[done.length]? = some n) (hrow : row.length < n) (hn : n ≤ l.stride)
    (x : BasisId) :
    ∃ cells', l.set done.length row.length x cells = .ok cells' ∧
      l.Holds (done ++ [row ++ [x]]) cells' := by
  obtain ⟨hvar, -⟩ := List.getElem?_eq_some_iff.1 hlen
  have hstride : row.length < l.stride := hrow.trans_le hn
  have hlt : done.length * l.stride + row.length < cells.length := by
    rw [h.length]
    exact index_lt hvar hstride
  refine ⟨cells.set (done.length * l.stride + row.length) x, ?_, ?_, ?_, ?_⟩
  · rw [set, index_eq_ok hwords hvar hstride]
    exact change_eq_ok (List.getElem?_eq_getElem hlt) rfl
  · rw [List.length_set, h.length]
  · intro v r hr k y hy
    rcases Nat.lt_trichotomy v done.length with hv | rfl | hv
    · -- a cell of an earlier variable lies in front
      rw [List.getElem?_append_left hv] at hr
      have hk : k < l.stride :=
        (List.getElem?_eq_some_iff.1 hy).1.trans_le (hdone r (List.mem_of_getElem? hr))
      have hbefore := index_lt hv hk
      rw [List.getElem?_set_ne (by omega)]
      exact h.slots v r (by rw [List.getElem?_append_left hv, hr]) k y hy
    · rw [List.getElem?_append_right (Nat.le_refl _), Nat.sub_self] at hr
      cases hr
      rcases Nat.lt_or_ge k row.length with hk | hk
      · rw [List.getElem?_append_left hk] at hy
        rw [List.getElem?_set_ne (by omega)]
        exact h.slots _ row (by simp) k y hy
      · rw [List.getElem?_append_right hk, List.getElem?_singleton] at hy
        split at hy
        · cases hy
          rw [show k = row.length by omega, List.getElem?_set_self hlt]
        · cases hy
    · rw [List.getElem?_eq_none (by simp; omega)] at hr
      cases hr
  · intro v m hm k hk hkstride
    rw [List.getElem?_set_ne, h.unused v m hm k hk hkstride]
    -- the cell is that of a slot, so it is none behind the slots of a variable
    rcases Nat.lt_trichotomy v done.length with hv | rfl | hv
    · have := index_lt hv hkstride
      omega
    · cases hlen.symm.trans hm
      omega
    · have := index_lt hv hstride
      omega

end

/-- What is known of more slots is known of fewer. -/
theorem Holds.of_append {done : Substitution} {row : List BasisId} {x : BasisId}
    (h : l.Holds (done ++ [row ++ [x]]) cells) : l.Holds (done ++ [row]) cells := by
  refine ⟨h.length, fun v r hr k y hy => ?_, h.unused⟩
  rcases Nat.lt_or_ge v done.length with hv | hv
  · rw [List.getElem?_append_left hv] at hr
    exact h.slots v r (by rw [List.getElem?_append_left hv, hr]) k y hy
  · rw [List.getElem?_append_right hv, List.getElem?_singleton] at hr
    split at hr
    · cases hr
      refine h.slots v (row ++ [x]) ?_ k y ?_
      · rw [List.getElem?_append_right hv, List.getElem?_singleton, if_pos ‹_›]
      · rw [List.getElem?_append_left (List.getElem?_eq_some_iff.1 hy).1, hy]
    · cases hr

/-- A variable without elements makes no difference. -/
theorem holds_append_nil {done : Substitution} : l.Holds (done ++ [[]]) cells ↔ l.Holds done cells := by
  constructor
  · refine fun h => ⟨h.length, fun v r hr => h.slots v r ?_, h.unused⟩
    rw [List.getElem?_append_left (List.getElem?_eq_some_iff.1 hr).1, hr]
  · refine fun h => ⟨h.length, fun v r hr k x hx => ?_, h.unused⟩
    rcases Nat.lt_or_ge v done.length with hv | hv
    · exact h.slots v r (by rwa [List.getElem?_append_left hv] at hr) k x hx
    · rw [List.getElem?_append_right hv, List.getElem?_singleton] at hr
      split at hr
      · cases hr
        cases hx
      · cases hr

/-- The cells of a complete substitution: its rows, each filled up with zeros. -/
def cellsOf (l : Layout) (s : Substitution) : List BasisId :=
  s.flatMap fun row => row ++ List.replicate (l.stride - row.length) 0

section
variable {s : Substitution} (hlens : s.map List.length = l.lens)
  (hstride : ∀ n ∈ l.lens, n ≤ l.stride)
include hlens hstride

theorem length_row_le {row : List BasisId} (h : row ∈ s) : row.length ≤ l.stride :=
  hstride _ (hlens ▸ List.mem_map_of_mem h)

/-- From the first cell of a variable on, the cells are those of its row and of the rows after it. -/
theorem drop_cellsOf (v : Nat) :
    (l.cellsOf s).drop (v * l.stride) = l.cellsOf (s.drop v) := by
  have hrows : ∀ row ∈ s, row.length ≤ l.stride := fun row h => length_row_le hlens hstride h
  clear hlens
  induction s generalizing v with
  | nil => simp [cellsOf]
  | cons row s ih =>
    obtain ⟨hrow, hrows⟩ := List.forall_mem_cons.1 hrows
    cases v with
    | zero => simp
    | succ v =>
      have hlength : (row ++ List.replicate (l.stride - row.length) 0).length = l.stride := by
        rw [List.length_append, List.length_replicate]
        omega
      rw [List.drop_succ_cons, ← ih v hrows, cellsOf, List.flatMap_cons, Nat.succ_mul, Nat.add_comm,
        ← List.drop_drop, List.drop_left' hlength]
      rfl

theorem length_cellsOf : (l.cellsOf s).length = l.lens.length * l.stride := by
  have hrows : ∀ row ∈ s, (row ++ List.replicate (l.stride - row.length) 0).length = l.stride := by
    intro row h
    have := length_row_le hlens hstride h
    rw [List.length_append, List.length_replicate]
    omega
  rw [cellsOf, List.length_flatMap, List.map_congr_left hrows, List.map_const', List.sum_replicate_nat,
    ← hlens, List.length_map]

theorem getElem?_cellsOf {v : Nat} {row : List BasisId} (hrow : s[v]? = some row) {k : Nat}
    (hk : k < l.stride) :
    (l.cellsOf s)[v * l.stride + k]? =
      (row ++ List.replicate (l.stride - row.length) 0)[k]? := by
  obtain ⟨hv, rfl⟩ := List.getElem?_eq_some_iff.1 hrow
  have hle := length_row_le hlens hstride (List.getElem_mem hv)
  rw [← List.getElem?_drop, drop_cellsOf hlens hstride, List.drop_eq_getElem_cons hv, cellsOf,
    List.flatMap_cons, List.getElem?_append_left]
  rw [List.length_append, List.length_replicate]
  omega

theorem holds_cellsOf : l.Holds s (l.cellsOf s) where
  length := length_cellsOf hlens hstride
  slots v row hrow k x hx := by
    have hk := (List.getElem?_eq_some_iff.1 hx).1
    have hle := length_row_le hlens hstride (List.mem_of_getElem? hrow)
    rw [getElem?_cellsOf hlens hstride hrow (hk.trans_le hle), List.getElem?_append_left hk, hx]
  unused v n hn k hk hkstride := by
    rw [← hlens, List.getElem?_map] at hn
    obtain ⟨row, hrow, rfl⟩ := Option.map_eq_some_iff.1 hn
    rw [getElem?_cellsOf hlens hstride hrow hkstride, List.getElem?_append_right hk,
      List.getElem?_replicate_of_lt (by omega)]

/-- Nothing else is in the cells. -/
theorem Holds.eq_cellsOf (h : l.Holds s cells) : cells = l.cellsOf s := by
  have h' := holds_cellsOf hlens hstride
  have hcell : ∀ v k, v < l.lens.length → k < l.stride →
      cells[v * l.stride + k]? = (l.cellsOf s)[v * l.stride + k]? := by
    intro v k hv hk
    rw [← hlens, List.length_map] at hv
    have hrow := List.getElem?_eq_getElem hv
    rcases Nat.lt_or_ge k s[v].length with hslot | hslot
    · have hx := List.getElem?_eq_getElem hslot
      rw [h.slots v _ hrow k _ hx, h'.slots v _ hrow k _ hx]
    · have hlen : l.lens[v]? = some s[v].length := by
        rw [← hlens, List.getElem?_map, hrow, Option.map_some]
      rw [h.unused v _ hlen k hslot hk, h'.unused v _ hlen k hslot hk]
  refine List.ext_getElem? fun i => ?_
  by_cases hi : i < l.lens.length * l.stride
  · have hpos : 0 < l.stride := Nat.pos_of_mul_pos_left (Nat.zero_lt_of_lt hi)
    have hcell := hcell (i / l.stride) (i % l.stride) ((Nat.div_lt_iff_lt_mul hpos).2 hi)
      (Nat.mod_lt i hpos)
    rwa [Nat.div_add_mod'] at hcell
  · rw [List.getElem?_eq_none (h.length ▸ Nat.not_lt.1 hi),
      List.getElem?_eq_none (h'.length ▸ Nat.not_lt.1 hi)]

end

end Layout

/-- Reads a substitution. -/
def readerOf (s : Substitution) : Reader := fun var slot => (s.slot var slot).mapError .fault

theorem readerOf_eq {s : Substitution} {v : Nat} {row : List BasisId} (h : s[v]? = some row)
    (k : Nat) : readerOf s v k = cell row k := by
  rw [readerOf, Substitution.slot, h, Option.bind_some, cell]
  cases row[k]? <;> rfl

/-- The cells of a complete substitution are read as the substitution is. -/
theorem Layout.Holds.reader_eq {l : Layout} {cells : List BasisId} {s : Substitution}
    (h : l.Holds s cells) (hlens : s.map List.length = l.lens)
    (hstride : ∀ n ∈ l.lens, n ≤ l.stride) (hwords : l.lens.length * l.stride ≤ maximalCount) :
    l.reader cells = readerOf s := by
  funext v k
  cases hv : s[v]? with
  | none =>
    have hnone : cell l.lens v = .error (.fault .index) := by
      rw [cell, ← hlens, List.getElem?_map, hv, Option.map_none]
    rw [reader, hnone, readerOf, Substitution.slot, hv]
    rfl
  | some row =>
    have hlen : l.lens[v]? = some row.length := by
      rw [← hlens, List.getElem?_map, hv, Option.map_some]
    obtain ⟨hvar, -⟩ := List.getElem?_eq_some_iff.1 hlen
    rw [reader, cell_eq_ok hlen, readerOf_eq hv]
    show (if k < row.length then _ else _) = _
    split
    · rename_i hk
      have hslot := h.slots v row hv k row[k] (List.getElem?_eq_getElem hk)
      have hindex := index_eq_ok hwords hvar (hk.trans_le (hstride _ (List.mem_of_getElem? hlen)))
      rw [hindex, cell_eq_ok (List.getElem?_eq_getElem hk)]
      exact cell_eq_ok hslot
    · rename_i hk
      rw [cell, List.getElem?_eq_none (Nat.not_lt.1 hk)]
      rfl

/-! ## The search is a walk -/

section
open Program (Takes)

theorem takes_eachElement {μ σ α : Type} {K : μ → Prop} {visitor : α → Token → σ → Run σ} {b : Basis}
    (hb : b.size ≤ maximalCount) {body : BasisId → Program μ σ} {rest : BasisId → Walk α}
    {next : Option BasisId} {l : List BasisId} (hl : b.Walks next l)
    (h : ∀ x ∈ l, Takes K visitor (body x) (rest x)) :
    Takes K visitor (eachElement b body next) (.choose l rest) := by
  induction hl with
  | done =>
    rw [eachElement]
    exact Takes.skip
  | @next x next l hnext _ ih =>
    obtain ⟨n, hn, -⟩ := bind_eq_ok.1 hnext
    have hlt : x < b.size := Basis.lt_size_of_nameOf hn
    have hstep : nextElement b x = .ok next := by
      rw [nextElement, addWord_eq_ok (Nat.le_trans hlt hb), hnext]
      rfl
    rw [eachElement]
    refine Takes.choose_cons (h x List.mem_cons_self) ?_
    split
    · rename_i herror
      cases hstep.symm.trans herror
    · rename_i hok
      cases hstep.symm.trans hok
      exact ih fun y hy => h y (List.mem_cons_of_mem _ hy)

variable {σ : Type} {t : Table} {b : Basis} {p : Partition} {l : Layout}
  {visitor : List BasisId → Token → σ → Run σ} {visitor' : Substitution → Token → σ → Run σ}

section
variable (hb : b.Built t) (hsize : b.size ≤ maximalCount)
  (hwords : l.lens.length * l.stride ≤ maximalCount)
include hb hsize hwords

/-- From a slot on, the search is the one for the rest of its row. -/
theorem takes_row {done : Substitution} (hdone : ∀ r ∈ done, r.length ≤ l.stride)
    {names : List Name} (hnames : p[done.length]? = some names)
    (hlen : l.lens[done.length]? = some names.length) (hstride : names.length ≤ l.stride)
    {next : List BasisId → Walk Substitution}
    (h : ∀ row, row.length = names.length → Takes (l.Holds (done ++ [row])) visitor'
      (fillCells b p l visitor (done.length + 1) 0) (next row))
    {rest : List Name} {row : List BasisId} (hrest : names.drop row.length = rest)
    (hrow : row.length ≤ names.length) :
    Takes (l.Holds (done ++ [row])) visitor' (fillCells b p l visitor done.length row.length)
      (fillRow b next rest row.reverse) := by
  obtain ⟨hvar, hcount⟩ := List.getElem?_eq_some_iff.1 hlen
  induction rest generalizing row with
  | nil =>
    have hfull : row.length = names.length := by
      have := List.drop_eq_nil_iff.1 hrest
      omega
    rw [fillCells, fillRow, if_neg (Nat.ne_of_lt hvar), dif_pos hvar, if_pos (hfull.trans hcount.symm),
      List.reverse_reverse]
    exact Takes.poll (h row hfull)
  | cons name rest ih =>
    have hlt : row.length < names.length := by
      by_contra hge
      rw [List.drop_eq_nil_of_le (Nat.not_lt.1 hge)] at hrest
      cases hrest
    rw [List.drop_eq_getElem_cons hlt] at hrest
    obtain ⟨rfl, rfl⟩ := List.cons_eq_cons.1 hrest
    rw [fillCells, fillRow, if_neg (Nat.ne_of_lt hvar), dif_pos hvar, if_neg (by omega),
      if_pos (by omega)]
    refine Takes.poll (Takes.check (fun _ _ => cell_eq_ok hnames) ?_)
    refine Takes.check (fun _ _ => cell_eq_ok (List.getElem?_eq_getElem hlt)) ?_
    dsimp only
    rw [Walk.chooseFrom_eq_choose]
    refine takes_eachElement hsize (hb.walks names[row.length]) fun x _ => ?_
    refine Takes.between
      (fun cells hcells => hcells.exists_set hwords hdone hlen hlt hstride x)
      (fun cells hcells => ⟨cells, rfl, hcells.of_append⟩) ?_
    have hrec := @ih (row ++ [x]) (by rw [List.length_append]; rfl)
      (by rw [List.length_append]; exact hlt)
    rwa [List.length_append, List.reverse_append] at hrec

/-- From a variable on, the search is the one for the rows from it on. -/
theorem takes_rows (hlens : l.lens = p.map List.length) (hstride : ∀ n ∈ l.lens, n ≤ l.stride)
    (h : ∀ s cells, s.map List.length = l.lens → l.Holds s cells →
      ∀ token st, visitor cells token st = visitor' s token st)
    {rest : Partition} {taken : Substitution} (hrest : p.drop taken.length = rest)
    (htaken : taken.reverse.map List.length = l.lens.take taken.length)
    (hle : taken.length ≤ l.lens.length) :
    Takes (l.Holds taken.reverse) visitor' (fillCells b p l visitor taken.length 0)
      (fillRows b rest taken) := by
  induction rest generalizing taken with
  | nil =>
    have hfull : taken.length = l.lens.length := by
      have := List.drop_eq_nil_iff.1 hrest
      rw [hlens, List.length_map] at hle ⊢
      omega
    rw [hfull, List.take_length] at htaken
    rw [fillCells, fillRows, if_pos hfull]
    exact Takes.poll (Takes.visit fun cells hcells => h _ cells htaken hcells)
  | cons names rest ih =>
    have hnames : p[taken.length]? = some names := by
      rw [← List.head?_drop, hrest, List.head?_cons]
    have hlen : l.lens[taken.length]? = some names.length := by
      rw [hlens, List.getElem?_map, hnames, Option.map_some]
    have hdone : ∀ r ∈ taken.reverse, r.length ≤ l.stride := fun r hr =>
      hstride _ (List.mem_of_mem_take (htaken ▸ List.mem_map_of_mem hr))
    have hholds : l.Holds taken.reverse = l.Holds (taken.reverse ++ [[]]) :=
      funext fun _ => propext Layout.holds_append_nil.symm
    have hnext : ∀ row : List BasisId, row.length = names.length →
        Takes (l.Holds (taken.reverse ++ [row])) visitor'
          (fillCells b p l visitor (taken.reverse.length + 1) 0)
          (fillRows b rest (row :: taken)) := by
      intro row hrow
      rw [List.length_reverse, ← List.reverse_cons]
      refine ih ?_ ?_ (List.getElem?_eq_some_iff.1 hlen).1
      · rw [List.length_cons, ← List.tail_drop, hrest, List.tail_cons]
      · rw [List.reverse_cons, List.map_append, htaken, List.length_cons, List.take_add_one, hlen,
          List.map_singleton, hrow]
        rfl
    rw [← List.length_reverse] at hnames hlen
    have hrow := takes_row hb hsize hwords hdone hnames hlen
      (hstride _ (List.mem_of_getElem? hlen)) hnext
      (show names.drop ([] : List BasisId).length = names from rfl) (Nat.zero_le _)
    rw [hholds, fillRows]
    rwa [List.length_reverse] at hrow

end

end

theorem le_foldr_max {l : List Nat} {n : Nat} (h : n ∈ l) : n ≤ l.foldr max 0 := by
  induction l with
  | nil => cases h
  | cons m l ih =>
    rcases List.mem_cons.1 h with rfl | h
    · exact le_max_left _ _
    · exact (ih h).trans (le_max_right _ _)

/-- A row starts at the first cell of its variable. -/
theorem SlotTable.row_eq_ok {l : Layout} {s : Substitution} (hlens : s.map List.length = l.lens)
    (hstride : ∀ n ∈ l.lens, n ≤ l.stride) (hwords : l.lens.length * l.stride ≤ maximalCount)
    {v : Nat} {row : List BasisId} (hrow : s[v]? = some row) :
    (SlotTable.mk l (l.cellsOf s)).row v = .ok row := by
  obtain ⟨hv, hget⟩ := List.getElem?_eq_some_iff.1 hrow
  have hlen : l.lens[v]? = some row.length := by
    rw [← hlens, List.getElem?_map, hrow, Option.map_some]
  have hlength : row.length ≤ l.stride := hstride _ (List.mem_of_getElem? hlen)
  have hpast : v * l.stride + row.length ≤ (l.cellsOf s).length :=
    calc v * l.stride + row.length ≤ v * l.stride + l.stride := Nat.add_le_add_left hlength _
      _ = (v + 1) * l.stride := (Nat.succ_mul ..).symm
      _ ≤ l.lens.length * l.stride :=
        Nat.mul_le_mul_right _ (List.getElem?_eq_some_iff.1 hlen).1
      _ = (l.cellsOf s).length := (Layout.length_cellsOf hlens hstride).symm
  have hend : v * l.stride + row.length ≤ maximalCount :=
    hpast.trans ((Layout.length_cellsOf hlens hstride).trans_le hwords)
  refine bind_eq_ok.2 ⟨_, mulWord_eq_ok ((Nat.le_add_right ..).trans hend), ?_⟩
  refine bind_eq_ok.2 ⟨_, cell_eq_ok hlen, ?_⟩
  refine bind_eq_ok.2 ⟨_, addWord_eq_ok hend, ?_⟩
  rw [if_pos hpast, Nat.add_sub_cancel_left, Layout.drop_cellsOf hlens hstride,
    List.drop_eq_getElem_cons hv, hget, Layout.cellsOf, List.flatMap_cons, List.append_assoc,
    List.take_left]
  rfl

/-- The layout of a substitution's slots. -/
def Layout.ofSubstitution (s : Substitution) : Layout :=
  ⟨s.map List.length, (s.map List.length).foldr max 0⟩

namespace SlotTable

/-- The table of a complete substitution. The cells behind the slots of a variable are 0. -/
def ofSubstitution (s : Substitution) : SlotTable :=
  ⟨.ofSubstitution s, (Layout.ofSubstitution s).cellsOf s⟩

variable {s : Substitution}
  (hwords : (Layout.ofSubstitution s).lens.length * (Layout.ofSubstitution s).stride ≤ maximalCount)
include hwords

theorem get_ofSubstitution : (ofSubstitution s).get = readerOf s :=
  (Layout.holds_cellsOf rfl fun _ hn => le_foldr_max hn).reader_eq rfl
    (fun _ hn => le_foldr_max hn) hwords

theorem row_ofSubstitution {v : Nat} {row : List BasisId} (hrow : s[v]? = some row) :
    (ofSubstitution s).row v = .ok row :=
  row_eq_ok rfl (fun _ hn => le_foldr_max hn) hwords hrow

end SlotTable

section
variable {σ : Type} {t : Table} {b : Basis} {p : Partition}

/-- The search in memory is the search for substitutions, if the cells fit in memory. The visitor sees
the cells when all slots are filled. -/
theorem tables_eq_forEach (hb : b.Built t) (hsize : b.size ≤ maximalCount)
    (hcells : p.length * (p.map List.length).foldr max 0 ≤ wordCapacity)
    {visitor : SlotTable → Token → σ → Run σ} {visitor' : Substitution → Token → σ → Run σ}
    (h : ∀ s cells, s.map List.length = p.map List.length → (Layout.ofPartition p).Holds s cells →
      ∀ token st, visitor ⟨Layout.ofPartition p, cells⟩ token st = visitor' s token st)
    (token : Token) (st : σ) :
    tables b p visitor token st = (Search.substitutions b p).forEach visitor' token st := by
  have hlens : (Layout.ofPartition p).lens = p.map List.length := rfl
  have hstride : ∀ n ∈ (Layout.ofPartition p).lens, n ≤ (Layout.ofPartition p).stride :=
    fun n hn => le_foldr_max hn
  have hfits : (Layout.ofPartition p).stride * (Layout.ofPartition p).lens.length ≤ wordCapacity := by
    rwa [hlens, List.length_map, Nat.mul_comm]
  have hwords : (Layout.ofPartition p).lens.length * (Layout.ofPartition p).stride ≤ maximalCount :=
    (Nat.mul_comm .. ▸ hfits).trans (by decide)
  have htakes := takes_rows hb hsize hwords hlens hstride h
    (show p.drop ([] : Substitution).length = p from rfl) rfl (Nat.zero_le _)
  rw [tables, mulWord_eq_ok (hfits.trans (by decide))]
  dsimp only
  rw [if_pos hfits]
  refine htakes.start ⟨?_, fun v row hv => (by cases hv), fun v n hn k _ hk => ?_⟩ token st
  · rw [List.length_replicate, Nat.mul_comm]
  · rw [Nat.mul_comm]
    exact List.getElem?_replicate_of_lt (Layout.index_lt (List.getElem?_eq_some_iff.1 hn).1 hk)

/-- The visitor sees the table of the substitution, whatever was in the cells before. -/
theorem tables_eq (hb : b.Built t) (hsize : b.size ≤ maximalCount)
    (hcells : p.length * (p.map List.length).foldr max 0 ≤ wordCapacity)
    (visitor : SlotTable → Token → σ → Run σ) (token : Token) (st : σ) :
    tables b p visitor token st =
      (Search.substitutions b p).forEach (fun s => visitor (.ofSubstitution s)) token st := by
  refine tables_eq_forEach hb hsize hcells (fun s cells hs hholds token st => ?_) token st
  have hl : Layout.ofPartition p = .ofSubstitution s := by
    rw [Layout.ofSubstitution, hs, Layout.ofPartition]
  rw [hl] at hholds ⊢
  rw [hholds.eq_cellsOf rfl fun n hn => le_foldr_max hn, SlotTable.ofSubstitution]

/-- If the visitor looks up single elements, those of the substitution are found. -/
theorem substitutions_eq (hb : b.Built t)
    (hsize : b.size ≤ maximalCount)
    (hcells : p.length * (p.map List.length).foldr max 0 ≤ wordCapacity)
    (visitor : Reader → Token → σ → Run σ) (token : Token) (s : σ) :
    substitutions b p visitor token s =
      (Search.substitutions b p).forEach (fun s => visitor (readerOf s)) token s := by
  rw [substitutions_eq_tables]
  refine tables_eq_forEach hb hsize hcells (fun s cells hs hholds token st => ?_) token s
  have hwords : (Layout.ofPartition p).lens.length * (Layout.ofPartition p).stride ≤ maximalCount := by
    rw [Layout.ofPartition, List.length_map]
    exact hcells.trans (by decide)
  rw [SlotTable.get, hholds.reader_eq hs (fun n hn => le_foldr_max hn) hwords]

end

end Nonassoc.Checked
