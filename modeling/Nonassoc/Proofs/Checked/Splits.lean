import Nonassoc.Proofs.Checked.Programs
import Nonassoc.Proofs.Splits

/-!
# Splitting a target on a grid

`Checked.splits` searches for the splits of a target on a `Grid`: a row of bytes for each variable, a
column for each generator, and the sum of each row. A cell is filled before the search goes down and
cleared when it comes up again. `Checked.splits_eq`: this is `Search.splits`, so it never leaves the
grid, a byte or a word. What carries it is that at a cell the bytes still to be given out are what is
left of the column and the columns after it (`takes_column`).
-/

namespace Nonassoc.Checked

open Multidegree (Name Table)
open Search (Share Balance emptyShare totalMissing totalMissing_append totalMissing_cons feasible fillColumn
  fillColumns shareNames value_spec give?_value)
open Walk (Run)

/-! ## The grid -/

/-- A row of bytes for each variable, its sum, what is not assigned yet, and a place for the name of
each row. -/
structure Grid where
  rows : List (List UInt8)
  degrees : List Nat
  unassigned : Nat
  names : List Name

namespace Grid

/-- The grid without entries. -/
def empty (vars columns unassigned : Nat) : Grid where
  rows := List.replicate vars (List.replicate columns 0)
  degrees := List.replicate vars 0
  unassigned
  names := List.replicate vars 0

/-- Puts `x` into a cell. -/
def give (g : Grid) (var column : Nat) (x : UInt8) : Except Failure Grid := do
  return {
    rows := ← change g.rows var fun row => change row column fun _ => .ok x
    degrees := ← change g.degrees var (addWord · x.toNat)
    unassigned := ← subWord g.unassigned x.toNat
    names := g.names }

/-- Clears a cell that holds `x`. -/
def takeBack (g : Grid) (var column : Nat) (x : UInt8) : Except Failure Grid := do
  return {
    unassigned := ← addWord g.unassigned x.toNat
    degrees := ← change g.degrees var (subWord · x.toNat)
    rows := ← change g.rows var fun row => change row column fun _ => .ok 0
    names := g.names }

/-- Whether the search may go on after a cell of the variable was filled: what all variables still
miss is left, and nothing is missing if the column is the last one. -/
def isFeasible (g : Grid) (least : List Nat) (lastColumn : Bool) (var : Nat) :
    Except Failure Bool := do
  let degree ← cell g.degrees var
  let needed ← cell least var
  if lastColumn && degree < needed then return false
  let deficit ← sumWords (List.zipWith (fun degree needed => needed - degree) g.degrees least)
  return deficit ≤ g.unassigned

/-- Puts the names of rows, the first one that of the variable, into their places. -/
def nameFrom (t : Table) : (rows : List (List UInt8)) → (var : Nat) → (names : List Name) →
    Except Failure (List Name)
  | [], _, names => .ok names
  | row :: rest, var, names =>
    match t.name? ⟨row⟩ with
    | none => .error (.multidegree (.notInTable ⟨row⟩))
    | some n => do nameFrom t rest (var + 1) (← change names var fun _ => .ok n)

end Grid

/-! ## The search -/

/-- What a search for splits is given: the components of the target, and the degrees that the
variables ask for. -/
structure SplitSearch where
  table : Table
  columns : List UInt8
  least : List Nat

/-- The bytes from `x` down to zero. -/
def bytesFrom (x : UInt8) : List UInt8 := ((List.range (x.toNat + 1)).map UInt8.ofNat).reverse

namespace SplitSearch

variable {σ : Type} (q : SplitSearch) (visitor : List Name → Token → σ → Run σ)

/-- Fills a cell, goes on if that is feasible, and clears it again. -/
def place (var column : Nat) (x : UInt8) (next : Program Grid σ) : Program Grid σ :=
  .between (·.give var column x) (·.takeBack var column x) <|
    .check (·.isFeasible q.least (column + 1 == q.columns.length) var) fun feasible =>
      if feasible then next else .skip

/-- Names the rows and calls the visitor. -/
def emit : Program Grid σ :=
  .check (fun g => Grid.nameFrom q.table g.rows 0 g.names) fun names =>
    .between (fun g => .ok { g with names }) .ok <| .visit fun g => visitor g.names

/-- Fills the cells from a cell on, column by column, where the variables before this one have taken
`weight` of its column. Each takes every byte that is left, largest first, and the last one takes all
that is left. -/
def fill (var column : Nat) (weight : UInt8) : Program Grid σ :=
  .poll <|
    if column = q.columns.length then q.emit visitor
    else if h : var < q.least.length ∧ column < q.columns.length then
      .check (fun _ => subByte q.columns[column] weight) fun remainder =>
        if var + 1 = q.least.length then
          q.place var column remainder (fill 0 (column + 1) 0)
        else
          .each (bytesFrom remainder) fun x =>
            q.place var column x <|
              .check (fun _ => addByte weight x) fun weight => fill (var + 1) column weight
    else .stop (.fault .index)
termination_by (q.columns.length - column, q.least.length - var)

end SplitSearch

/-- The splits of a target among variables that ask for the degrees in `least`, on a grid. -/
def splits {σ : Type} (t : Table) (target : Name) (least : List Nat)
    (visitor : List Name → Token → σ → Run σ) (token : Token) (s : σ) : Run σ :=
  match t.entry target with
  | .error f => ⟨.error (.fault f), token, s⟩
  | .ok m =>
    if least.isEmpty then ⟨.ok (), token, s⟩
    else
      match sumWords least with
      | .error e => ⟨.error e, token, s⟩
      | .ok sum =>
        if m.degree < sum then ⟨.ok (), token, s⟩
        else
          ((SplitSearch.mk t m.components least).fill visitor 0 0 0).start
            (.empty least.length m.generators m.degree) token s

/-! ## Grids of shares -/

/-- The row of a share: what it was given so far, and zeros. -/
def rowOf (columns : Nat) (s : Share) : List UInt8 :=
  s.taken.reverse ++ List.replicate (columns - s.taken.length) 0

/-- The grid holds what the shares were given. -/
structure Grid.Holds (columns : Nat) (shares : List Share) (unassigned : Nat) (g : Grid) :
    Prop where
  rows : g.rows = shares.map (rowOf columns)
  degrees : g.degrees = shares.map Share.degree
  unassigned : g.unassigned = unassigned
  names : g.names.length = shares.length

theorem rowOf_eq {columns : Nat} {s : Share} (h : s.taken.length < columns) :
    rowOf columns s =
      s.taken.reverse ++ 0 :: List.replicate (columns - (s.taken.length + 1)) 0 := by
  rw [rowOf, show columns - s.taken.length = columns - (s.taken.length + 1) + 1 by omega,
    List.replicate_succ]

theorem rowOf_grow (columns : Nat) (s : Share) (x : UInt8) :
    rowOf columns (s.grow x) =
      s.taken.reverse ++ x :: List.replicate (columns - (s.taken.length + 1)) 0 := by
  rw [rowOf, Share.grow, List.reverse_cons, List.append_assoc]
  rfl

/-- The cell behind what a share was given can be filled, and cleared again. -/
theorem change_rowOf {columns : Nat} {s : Share} (h : s.taken.length < columns) (x : UInt8) :
    change (rowOf columns s) s.taken.length (fun _ => .ok x) = .ok (rowOf columns (s.grow x)) ∧
      change (rowOf columns (s.grow x)) s.taken.length (fun _ => .ok 0) = .ok (rowOf columns s) := by
  rw [rowOf_eq h, rowOf_grow, ← List.length_reverse]
  exact ⟨change_append _ _ rfl, change_append _ _ rfl⟩

/-- Where one share changes, so does one entry of a list with something of every share. -/
theorem change_map {β : Type} (f : Share → β) (c : β → Except Failure β)
    (before rest : List Share) {s s' : Share} (h : c (f s) = .ok (f s')) :
    change ((before ++ s :: rest).map f) before.length c = .ok ((before ++ s' :: rest).map f) := by
  rw [List.map_append, List.map_append, List.map_cons, List.map_cons, ← List.length_map f]
  exact change_append _ _ h

section
variable {columns unassigned : Nat} {before rest : List Share} {share : Share} {x : UInt8}
  {g : Grid} (hcolumn : share.taken.length < columns)
include hcolumn

theorem Grid.Holds.exists_give
    (h : g.Holds columns (before ++ share :: rest) (x.toNat + unassigned))
    (hword : share.degree + x.toNat ≤ maximalCount) :
    ∃ g', g.give before.length share.taken.length x = .ok g' ∧
      g'.Holds columns (before ++ share.grow x :: rest) unassigned := by
  have hdegree : addWord share.degree x.toNat = .ok (share.grow x).degree := addWord_eq_ok hword
  have hrows := change_map (rowOf columns) (fun row => change row share.taken.length fun _ => .ok x)
    before rest (change_rowOf hcolumn x).1
  have hdegrees := change_map Share.degree (addWord · x.toNat) before rest hdegree
  have hunassigned := subWord_eq_ok (Nat.le_add_right x.toNat unassigned)
  rw [Nat.add_sub_cancel_left] at hunassigned
  rw [← h.rows] at hrows
  rw [← h.degrees] at hdegrees
  rw [← h.unassigned] at hunassigned
  refine ⟨⟨_, _, _, g.names⟩, ?_, rfl, rfl, rfl, ?_⟩
  · rw [Grid.give, hrows, hdegrees, hunassigned]
    rfl
  · simpa using h.names

theorem Grid.Holds.exists_takeBack (h : g.Holds columns (before ++ share.grow x :: rest) unassigned)
    (hword : x.toNat + unassigned ≤ maximalCount) :
    ∃ g', g.takeBack before.length share.taken.length x = .ok g' ∧
      g'.Holds columns (before ++ share :: rest) (x.toNat + unassigned) := by
  have hdegree : subWord (share.grow x).degree x.toNat = .ok share.degree := by
    rw [Share.grow, subWord_eq_ok (Nat.le_add_left ..), Nat.add_sub_cancel]
  have hrows := change_map (rowOf columns) (fun row => change row share.taken.length fun _ => .ok 0)
    before rest (change_rowOf hcolumn x).2
  have hdegrees := change_map Share.degree (subWord · x.toNat) before rest hdegree
  rw [Nat.add_comm] at hword
  have hunassigned := addWord_eq_ok hword
  rw [← h.rows] at hrows
  rw [← h.degrees] at hdegrees
  rw [← h.unassigned] at hunassigned
  refine ⟨⟨_, _, g.unassigned + x.toNat, g.names⟩, ?_, rfl, rfl, ?_, ?_⟩
  · rw [Grid.takeBack, hrows, hdegrees, hunassigned]
    rfl
  · rw [h.unassigned, Nat.add_comm]
  · simpa using h.names

end

theorem zipWith_missing (shares : List Share) :
    total (List.zipWith (fun degree needed => needed - degree) (shares.map Share.degree)
      (shares.map Share.least)) = totalMissing shares := by
  induction shares with
  | nil => rfl
  | cons s shares ih => exact congrArg (s.missing + ·) ih

theorem totalMissing_le (shares : List Share) :
    totalMissing shares ≤ total (shares.map Share.least) := by
  induction shares with
  | nil => exact Nat.le_refl _
  | cons s shares ih => exact Nat.add_le_add (Nat.sub_le ..) ih

theorem Grid.Holds.isFeasible_eq {columns unassigned : Nat} {before rest : List Share}
    {share : Share} {g : Grid} (h : g.Holds columns (before ++ share :: rest) unassigned)
    (hword : total ((before ++ share :: rest).map Share.least) ≤ maximalCount) (lastColumn : Bool) :
    g.isFeasible ((before ++ share :: rest).map Share.least) lastColumn before.length =
      .ok (feasible lastColumn share ⟨unassigned, totalMissing (before ++ share :: rest)⟩) := by
  have hdegree : cell g.degrees before.length = .ok share.degree := by
    rw [h.degrees, List.map_append, ← List.length_map Share.degree]
    exact cell_append ..
  have hleast : cell ((before ++ share :: rest).map Share.least) before.length =
      .ok share.least := by
    rw [List.map_append, ← List.length_map Share.least]
    exact cell_append ..
  have hsum : sumWords (List.zipWith (fun degree needed => needed - degree) g.degrees
      ((before ++ share :: rest).map Share.least)) =
        .ok (totalMissing (before ++ share :: rest)) := by
    rw [h.degrees, ← zipWith_missing]
    refine sumWords_eq_ok ?_
    rw [zipWith_missing]
    exact Nat.le_trans (totalMissing_le _) hword
  rw [Grid.isFeasible, hdegree, hleast]
  show (if (lastColumn && decide (share.degree < share.least)) = true then _ else _) = _
  rw [hsum, h.unassigned, feasible]
  by_cases hshort : (lastColumn && decide (share.degree < share.least)) = true
  · simp [hshort, pure, Except.pure]
  · simp [hshort, pure, Except.pure, bind, Except.bind]

/-- The rows of a full grid are named as the shares are. -/
theorem nameFrom_eq {t : Table} {shares : List Share} (done : List Name) {old : List Name}
    (h : old.length = shares.length) :
    Grid.nameFrom t (shares.map fun s => s.taken.reverse) done.length (done ++ old) =
      match shareNames t shares with
      | .ok names => .ok (done ++ names)
      | .error e => .error (.multidegree e) := by
  induction shares generalizing done old with
  | nil =>
    obtain rfl := List.length_eq_zero_iff.1 h
    rfl
  | cons s shares ih =>
    obtain ⟨n, old, rfl⟩ := List.exists_cons_of_length_eq_add_one h
    rw [shareNames, List.mapM_cons]
    show Grid.nameFrom t (s.taken.reverse :: shares.map fun s => s.taken.reverse) _ _ = _
    rw [Grid.nameFrom]
    show (match t.name? s.multidegree with | none => _ | some n => _) = _
    cases t.name? s.multidegree with
    | none => rfl
    | some m =>
      have hrec := ih (done ++ [m]) (Nat.succ.inj h)
      rw [List.length_append, List.append_assoc] at hrec
      have hchange : change (done ++ n :: old) done.length (fun _ => .ok m) =
          .ok (done ++ m :: old) := change_append _ _ rfl
      show (do Grid.nameFrom t _ (done.length + 1) (← change (done ++ n :: old) _ fun _ => .ok m)) = _
      rw [hchange]
      refine hrec.trans ?_
      rw [← shareNames]
      cases shareNames t shares with
      | error e => rfl
      | ok names => exact congrArg Except.ok (List.append_assoc done [m] names)

/-- The bytes from `x` down are what is left of `x` after each number up to it. -/
theorem bytesFrom_eq (x : UInt8) :
    bytesFrom x = (List.range' 0 (x.toNat + 1)).map fun i => x - UInt8.ofNat i := by
  rw [bytesFrom, ← List.map_reverse, List.range_eq_range', List.reverse_range', List.map_map,
    List.range_eq_range']
  refine List.map_congr_left fun i hi => ?_
  have hle : i ≤ x.toNat := by
    have := List.mem_range'_1.1 hi
    omega
  rw [(value_spec hle).1]
  show UInt8.ofNat (0 + (x.toNat + 1) - 1 - i) = _
  rw [Nat.zero_add, Nat.add_sub_cancel]

namespace SplitSearch

open Program (Takes)

variable {σ : Type} {q : SplitSearch} {visitor : List Name → Token → σ → Run σ}

/-- The shares ask for what the search is given, and what they have and what is not yet assigned make
a word together. -/
structure Fits (q : SplitSearch) (shares : List Share) (unassigned : Nat) : Prop where
  least : q.least = shares.map Share.least
  words : unassigned + total (shares.map Share.degree) ≤ maximalCount

theorem Fits.grow {before rest : List Share} {share : Share} {x : UInt8} {unassigned : Nat}
    (hfits : q.Fits (before ++ share :: rest) (x.toNat + unassigned)) :
    q.Fits (before ++ share.grow x :: rest) unassigned where
  least := by
    rw [hfits.least]
    simp [Share.grow]
  words := by
    have hwords := hfits.words
    simp only [List.map_append, total_append, List.map_cons, total_cons, Share.grow] at hwords ⊢
    omega

theorem takes_emit {shares : List Share} (hfull : ∀ s ∈ shares, s.taken.length = q.columns.length)
    (unassigned : Nat) :
    Takes (Grid.Holds q.columns.length shares unassigned) visitor (q.emit visitor)
      (.attempt .multidegree (shareNames q.table shares) .visit) := by
  refine Takes.attempt (fun g hg => ?_) fun names hnames => ?_
  · have hrows : g.rows = shares.map fun s => s.taken.reverse := by
      rw [hg.rows]
      refine List.map_congr_left fun s hs => ?_
      rw [rowOf, hfull s hs, Nat.sub_self, List.replicate_zero, List.append_nil]
    have hnames := nameFrom_eq (t := q.table) [] hg.names
    rw [List.length_nil, List.nil_append, ← hrows] at hnames
    rw [hnames]
    cases shareNames q.table shares <;> rfl
  · have hlen : names.length = shares.length := (mapM_eq_ok.1 hnames).length_eq.symm
    have hvisit : Takes (fun g : Grid => g.Holds q.columns.length shares unassigned ∧ g.names = names)
        visitor (.visit fun g : Grid => visitor g.names) (.visit names) :=
      Takes.visit fun g hg t s => by rw [hg.2]
    exact Takes.between
      (fun g hg => ⟨_, rfl, ⟨hg.rows, hg.degrees, hg.unassigned, hlen⟩, rfl⟩)
      (fun g hg => ⟨g, rfl, hg.1⟩) hvisit

section
variable (hq : total q.least ≤ maximalCount)
include hq

theorem takes_place {before rest : List Share} {share : Share} {x : UInt8} {unassigned : Nat}
    (hcolumn : share.taken.length < q.columns.length)
    (hfits : q.Fits (before ++ share :: rest) (x.toNat + unassigned)) {next : Program Grid σ}
    {w : Walk (List Name)}
    (h : Takes (Grid.Holds q.columns.length (before ++ share.grow x :: rest) unassigned) visitor
      next w) :
    Takes (Grid.Holds q.columns.length (before ++ share :: rest) (x.toNat + unassigned)) visitor
      (q.place before.length share.taken.length x next)
      (if feasible (share.taken.length + 1 == q.columns.length) (share.grow x)
          ⟨unassigned, totalMissing (before ++ share.grow x :: rest)⟩
        then w else .done) := by
  have hwords := hfits.words
  rw [List.map_append, total_append, List.map_cons, total_cons] at hwords
  have hleast := hfits.grow.least
  refine Takes.between (fun g hg => hg.exists_give hcolumn (by omega))
    (fun g hg => hg.exists_takeBack hcolumn (by omega)) ?_
  refine Takes.check (fun g hg => ?_) (b := feasible (share.taken.length + 1 == q.columns.length)
    (share.grow x) ⟨unassigned, totalMissing (before ++ share.grow x :: rest)⟩) ?_
  · rw [hleast]
    exact hg.isFeasible_eq (hleast ▸ hq) _
  · split
    · exact h
    · exact Takes.skip

/-- The cell of a variable that others come after in its column. -/
theorem takes_innerCell {before rest : List Share} {share : Share} {x used used' : UInt8}
    (hadd : addByte? used x = some used') {unassigned : Nat}
    (hcolumn : share.taken.length < q.columns.length)
    (hfits : q.Fits (before.reverse ++ share :: rest) (x.toNat + unassigned)) {w : Walk (List Name)}
    (h : Takes (Grid.Holds q.columns.length (before.reverse ++ share.grow x :: rest) unassigned)
      visitor (q.fill visitor (before.length + 1) share.taken.length used') w) :
    Takes (Grid.Holds q.columns.length (before.reverse ++ share :: rest) (x.toNat + unassigned))
      visitor
      (q.place before.length share.taken.length x <|
        .check (fun _ => addByte used x) fun weight =>
          q.fill visitor (before.length + 1) share.taken.length weight)
      (if feasible (share.taken.length + 1 == q.columns.length) (share.grow x)
          ⟨unassigned, totalMissing (before.reverse ++ share.grow x :: rest)⟩
        then w else .done) := by
  have hlen : before.length = before.reverse.length := List.length_reverse.symm
  rw [hlen] at h ⊢
  refine takes_place hq hcolumn hfits (Takes.check (fun _ _ => ?_) h)
  rw [addByte, hadd]

section
variable {column later : Nat} (hcolumn : column < q.columns.length)
  {next : List Share → Balance → Walk (List Name)}
  (hnext : ∀ shares, (∀ s ∈ shares, s.taken.length = column + 1) → q.Fits shares later →
    Takes (Grid.Holds q.columns.length shares later) visitor (q.fill visitor 0 (column + 1) 0)
      (next shares ⟨later, totalMissing shares⟩))
include hcolumn hnext

/-- The cell of the last variable, which takes all that is left of the column. -/
theorem takes_lastCell {before : List Share} {share : Share} {x : UInt8}
    (hbefore : ∀ s ∈ before, s.taken.length = column + 1)
    (hshare : share.taken.length = column)
    (hfits : q.Fits (before.reverse ++ [share]) (x.toNat + later)) :
    Takes (Grid.Holds q.columns.length (before.reverse ++ [share]) (x.toNat + later)) visitor
      (q.place before.length column x (q.fill visitor 0 (column + 1) 0))
      (if feasible (column + 1 == q.columns.length) (share.grow x)
          ⟨later, totalMissing (before.reverse ++ [share.grow x])⟩
        then next (share.grow x :: before).reverse
          ⟨later, totalMissing (before.reverse ++ [share.grow x])⟩
        else .done) := by
  have hlen : before.length = before.reverse.length := List.length_reverse.symm
  subst hshare
  rw [hlen]
  refine takes_place hq hcolumn hfits ?_
  rw [List.reverse_cons]
  refine hnext _ (fun s hs => ?_) hfits.grow
  rcases List.mem_append.1 hs with hs | hs
  · exact hbefore s (List.mem_reverse.1 hs)
  · rw [List.mem_singleton.1 hs]
    rfl

/-- From a cell on, the search on the grid is the one for the rest of its column. What the shares
still get is what the column has left and what is in later columns. -/
theorem takes_column {rest before : List Share} (hne : rest ≠ []) {used : UInt8}
    (hused : used ≤ q.columns[column]) (hbefore : ∀ s ∈ before, s.taken.length = column + 1)
    (hrest : ∀ s ∈ rest, s.taken.length = column)
    (hfits : q.Fits (before.reverse ++ rest)
      (q.columns[column].toNat - used.toNat + later)) :
    Takes (Grid.Holds q.columns.length (before.reverse ++ rest)
        (q.columns[column].toNat - used.toNat + later)) visitor
      (q.fill visitor before.length column used)
      (fillColumn (column + 1 == q.columns.length) q.columns[column] next rest used
        ⟨q.columns[column].toNat - used.toNat + later, totalMissing (before.reverse ++ rest)⟩
        before) := by
  induction rest generalizing used before with
  | nil => exact absurd rfl hne
  | cons share rest ih =>
    obtain rfl := hrest share List.mem_cons_self
    have hvars : q.least.length = before.length + (rest.length + 1) := by
      rw [hfits.least, List.length_map, List.length_append, List.length_reverse, List.length_cons]
    obtain ⟨left, hsub⟩ : ∃ left, subByte? q.columns[share.taken.length] used = some left :=
      ⟨q.columns[share.taken.length] - used, if_pos hused⟩
    have hleft := toNat_of_subByte? hsub
    have hleft' : q.columns[share.taken.length].toNat - used.toNat = left.toNat := by omega
    rw [hleft'] at hfits ⊢
    rw [fill, fillColumn]
    refine Takes.poll ?_
    rw [if_neg (Nat.ne_of_lt hcolumn), dif_pos ⟨by omega, hcolumn⟩]
    refine Takes.check (fun _ _ => ?_) (b := left) ?_
    · rw [subByte, hsub]
    cases rest with
    | nil =>
      have hx : left - UInt8.ofNat 0 = left := (value_spec (Nat.zero_le _)).1.trans (by simp)
      rw [if_pos (show before.length + 1 = q.least.length from hvars.symm)]
      simp only [hsub, List.isEmpty_nil, if_true, Nat.add_sub_cancel_left, Walk.chooseFrom, hx,
        give?_value (Nat.add_zero left.toNat), Nat.zero_add]
      exact takes_lastCell hq hcolumn hnext hbefore rfl hfits
    | cons share' rest =>
      rw [if_neg (by rw [hvars, List.length_cons]; omega), bytesFrom_eq, Program.each_map]
      simp only [hsub, List.isEmpty_cons, Bool.false_eq_true, if_false, Nat.sub_zero,
        Walk.chooseFrom_eq_choose]
      refine Takes.each fun i hi => ?_
      have hi : i ≤ left.toNat := by
        have := List.mem_range'_1.1 hi
        omega
      obtain ⟨hxe, hx⟩ := value_spec hi
      obtain ⟨used', hadd⟩ : ∃ u, addByte? used (UInt8.ofNat (left.toNat - i)) = some u :=
        ⟨_, if_pos (by have := q.columns[share.taken.length].toNat_lt; omega)⟩
      have hused' := toNat_of_addByte? hadd
      have hi' : q.columns[share.taken.length].toNat - used'.toNat = i := by omega
      rw [hxe, give?_value hx]
      rw [← hx, Nat.add_assoc] at hfits
      rw [show left.toNat + later = (UInt8.ofNat (left.toNat - i)).toNat + (i + later) by omega]
      have hrec := @ih (share.grow (UInt8.ofNat (left.toNat - i)) :: before) (List.cons_ne_nil _ _)
        used' (UInt8.le_iff_toNat_le.2 (by omega)) (List.forall_mem_cons.2 ⟨rfl, hbefore⟩)
        fun s hs => hrest s (List.mem_cons_of_mem _ hs)
      rw [hi', List.reverse_cons, List.append_assoc] at hrec
      simp only [hadd]
      exact takes_innerCell hq hadd hcolumn hfits (hrec hfits.grow)

end

/-- From the first cell of a column on, the search on the grid is the one for the columns from it
on. -/
theorem takes_columns {rest : List UInt8} {column : Nat} (hdrop : q.columns.drop column = rest)
    (hcolumn : column ≤ q.columns.length) (hvars : q.least ≠ []) {shares : List Share}
    (hshares : ∀ s ∈ shares, s.taken.length = column)
    (hfits : q.Fits shares (total (rest.map UInt8.toNat))) :
    Takes (Grid.Holds q.columns.length shares (total (rest.map UInt8.toNat))) visitor
      (q.fill visitor 0 column 0)
      (fillColumns (fun shares => .attempt .multidegree (shareNames q.table shares) .visit) rest
        shares ⟨total (rest.map UInt8.toNat), totalMissing shares⟩) := by
  induction rest generalizing column shares with
  | nil =>
    obtain rfl : column = q.columns.length := by
      have := List.drop_eq_nil_iff.1 hdrop
      omega
    rw [fill, fillColumns, if_pos rfl]
    exact Takes.poll (takes_emit hshares _)
  | cons bound rest ih =>
    have hlt : column < q.columns.length := by
      by_contra hge
      rw [List.drop_eq_nil_of_le (Nat.not_lt.1 hge)] at hdrop
      cases hdrop
    rw [List.drop_eq_getElem_cons hlt] at hdrop
    obtain ⟨rfl, rfl⟩ := List.cons_eq_cons.1 hdrop
    have hlast : (q.columns.drop (column + 1)).isEmpty = (column + 1 == q.columns.length) := by
      rw [Bool.eq_iff_iff, List.isEmpty_iff, List.drop_eq_nil_iff, beq_iff_eq]
      omega
    rw [fillColumns, hlast]
    exact takes_column hq hlt (fun _ hrow hfits => ih rfl hlt hrow hfits)
      (fun h => hvars (by rw [hfits.least, h, List.map_nil])) UInt8.zero_le
      (fun _ h => absurd h List.not_mem_nil) hshares hfits

end

end SplitSearch

theorem Grid.holds_empty (least : List Nat) (columns unassigned : Nat) :
    (Grid.empty least.length columns unassigned).Holds columns (least.map emptyShare)
      unassigned where
  rows := by simp [Grid.empty, rowOf, emptyShare, Function.comp_def]
  degrees := by simp [Grid.empty, emptyShare, Function.comp_def]
  unassigned := rfl
  names := by simp [Grid.empty]

theorem total_degree_empty (least : List Nat) :
    total ((least.map emptyShare).map Share.degree) = 0 := by
  induction least with
  | nil => rfl
  | cons d least ih => exact (Nat.zero_add _).trans ih

/-- The search on a grid is the search for splits. -/
theorem splits_eq {σ : Type} {t : Table} (ht : t.size ≤ maximalCount) (target : Name)
    {least : List Nat} (hleast : total least ≤ maximalCount)
    (visitor : List Name → Token → σ → Run σ) (token : Token) (s : σ) :
    splits t target least visitor token s =
      (Search.splits t target least).forEach visitor token s := by
  rw [splits, Search.splits]
  cases hm : t.entry target with
  | error f => rfl
  | ok m =>
    rw [sumWords_eq_ok hleast, Walk.attempt]
    dsimp only
    by_cases hvars : least.isEmpty = true
    · rw [if_pos hvars, if_pos (by rw [hvars, Bool.true_or])]
      rfl
    by_cases hshort : m.degree < total least
    · simp only [if_neg hvars, if_pos hshort, decide_eq_true hshort, Bool.or_true, if_true]
      rfl
    have hdegree : m.degree ≤ maximalCount := by
      have hcontains := Multidegree.Table.contains_iff.2 ⟨m, hm⟩
      have hle := Multidegree.Table.degreeOf_le hcontains
      have hlt : target < t.size := of_decide_eq_true hcontains
      rw [Multidegree.Table.degreeOf_of_entry hm] at hle
      exact (hle.trans hlt.le).trans ht
    have hfits : (SplitSearch.mk t m.components least).Fits (least.map emptyShare) m.degree :=
      ⟨by simp [emptyShare, Function.comp_def], by rwa [total_degree_empty, Nat.add_zero]⟩
    have hmissing : totalMissing (least.map emptyShare) = total least := by
      simp [totalMissing, Function.comp_def, Share.missing, emptyShare]
    have hshares : ∀ s ∈ least.map emptyShare, s.taken.length = 0 := by
      intro s hs
      obtain ⟨d, -, rfl⟩ := List.mem_map.1 hs
      rfl
    have htakes : Program.Takes _ visitor ((SplitSearch.mk t m.components least).fill visitor 0 0 0)
        (fillColumns _ m.components (least.map emptyShare) ⟨m.degree, _⟩) :=
      SplitSearch.takes_columns hleast rfl (Nat.zero_le _) (fun h => hvars (List.isEmpty_iff.2 h))
        hshares hfits
    rw [hmissing] at htakes
    simp only [if_neg hvars, if_neg hshort, decide_eq_false hshort, Bool.or_false]
    exact htakes.start (Grid.holds_empty ..) token s

end Nonassoc.Checked
