import Mathlib.Data.List.Sort
import Nonassoc.Proofs.Checked.Programs
import Nonassoc.Proofs.NameOrder
import Nonassoc.Proofs.Partitions

/-!
# Dividing the names of a split in memory

`Checked.partitions` searches for the partitions of a split with a list of parts for each variable, to
which a part is added before the search goes down and from which it is taken when it comes up again.
The first of several parts is looked for degree by degree, up to the bound. `Checked.partitions_eq`:
this is `Search.partitions`. The degrees between which the search looks are formed only for at least
two parts and at least as much to divide, and are then degrees of the table, whose names follow each
other (`degreeByDegree_eq`).
-/

namespace Nonassoc.Checked

open Multidegree (Name Table)
open Search (Partition withinBound withinBound_of_le firstParts mem_firstParts partsOf partsOfAll)
open Walk (Run)

variable {σ : Type}

/-! ## The search -/

/-- Adds a part of a variable, goes on, and takes the part away again. -/
def withPart (var : Nat) (part : Name) (next : Program Partition σ) : Program Partition σ :=
  .between (change · var fun parts => .ok (parts ++ [part]))
    (change · var fun parts => .ok parts.dropLast) next

/-- The names of degree `least`, then those of the next degree, and so on up to degree `most`, as far
as the bound allows. -/
def degreeByDegree (t : Table) (least most : Nat) (bound : Option Name) : List Name :=
  ((List.range' least (most + 1 - least)).flatMap t.ofDegree).takeWhile (withinBound bound)

/-- Divides `residual` of a variable into so many parts, none of them above the bound. -/
def divide (t : Table) (var : Nat) (next : Program Partition σ) :
    (count : Nat) → (residual : Name) → (bound : Option Name) → Program Partition σ
  | 0, residual, _ =>
    .poll <| .check (fun _ => (t.degree residual).mapError .fault) fun _ => .skip
  | 1, residual, bound =>
    .poll <| .check (fun _ => (t.degree residual).mapError .fault) fun n =>
      if n < 1 then .skip
      else if withinBound bound residual then withPart var residual next
      else .skip
  | count + 2, residual, bound =>
    .poll <| .check (fun _ => (t.degree residual).mapError .fault) fun n =>
      if n < count + 2 then .skip
      else
        .check (fun _ => divideUp n (count + 2)) fun least =>
        .check (fun _ => addWord n 1) fun past =>
        .check (fun _ => subWord past (count + 2)) fun most =>
          .each (degreeByDegree t least most bound) fun part =>
            .check (fun _ => (t.subtract residual part).mapError .fault) fun
              | none => .skip
              | some rest => withPart var part (divide t var next (count + 1) rest (some part))

/-- A visitor that passes over what is not canonical. -/
def canonically (visitor : Partition → Token → σ → Run σ) (p : Partition) (token : Token) (s : σ) :
    Run σ :=
  if p.isCanonical then visitor p token s else ⟨.ok (), token, s⟩

/-- Divides the variables from one on, and calls the visitor once all are divided. -/
def divideFrom (t : Table) (split : List Name) (degrees : List Nat)
    (visitor : Partition → Token → σ → Run σ) (var : Nat) : Program Partition σ :=
  if h : var < split.length then
    .check (fun _ => cell degrees var) fun count =>
      divide t var
        (if var + 1 = split.length then .visit (canonically visitor)
          else divideFrom t split degrees visitor (var + 1))
        count split[var] none
  else .stop (.fault .index)
termination_by split.length - var

/-- The partitions of a split, in memory. Room for all parts is set aside before the search. -/
def partitions (t : Table) (split : List Name) (degrees : List Nat)
    (visitor : Partition → Token → σ → Run σ) (token : Token) (s : σ) : Run σ :=
  if split.length ≠ degrees.length then ⟨.error (.fault .lengths), token, s⟩
  else if split.isEmpty then ⟨.ok (), token, s⟩
  else if degrees.all (· ≤ wordCapacity) then
    (divideFrom t split degrees visitor 0).start (degrees.map fun _ => []) token s
  else ⟨.error (.fault .memory), token, s⟩

/-! ## The first part -/

theorem takeWhile_eq_filter {p : Nat → Bool} (hp : ∀ a b, a ≤ b → p b = true → p a = true)
    {l : List Nat} (hl : l.Pairwise (· < ·)) : l.takeWhile p = l.filter p := by
  induction l with
  | nil => rfl
  | cons a l ih =>
    obtain ⟨hlt, hl⟩ := List.pairwise_cons.1 hl
    by_cases ha : p a = true
    · rw [List.takeWhile_cons_of_pos ha, List.filter_cons_of_pos ha, ih hl]
    · rw [List.takeWhile_cons_of_neg ha, List.filter_cons_of_neg ha]
      exact (List.filter_eq_nil_iff.2 fun b hb hpb => ha (hp a b (hlt b hb).le hpb)).symm

variable {t : Table}

/-- The names that are looked through degree by degree are those of the window for the first part. -/
theorem degreeByDegree_eq {n count : Nat} (hn : n ≤ t.target.degree) (hcount : 2 ≤ count)
    (hle : count ≤ n) (bound : Option Name) :
    degreeByDegree t ((n + count - 1) / count) (n + 1 - count) bound =
      List.range' (firstParts t n count bound).1 (firstParts t n count bound).2 := by
  have hsorted : ((List.range' ((n + count - 1) / count)
      (n + 1 - count + 1 - (n + count - 1) / count)).flatMap t.ofDegree).Pairwise (· < ·) :=
    Table.pairwise_flatMap_ofDegree (List.pairwise_lt_range' 1)
  rw [degreeByDegree, takeWhile_eq_filter (fun a b hab hb => withinBound_of_le hb hab) hsorted]
  refine (hsorted.filter _).eq_of_mem_iff (List.pairwise_lt_range' 1) fun part => ?_
  rw [mem_firstParts hn hcount hle, List.mem_filter, List.mem_flatMap]
  have hdiv : (n + count - 1) / count ≤ t.degreeOf part ↔ n ≤ count * t.degreeOf part := by
    rw [Nat.div_le_iff_le_mul_add_pred (by omega)]
    omega
  constructor
  · rintro ⟨⟨d, hd, hname⟩, hbound⟩
    obtain ⟨hpart, rfl⟩ := Table.mem_ofDegree.1 hname
    have := List.mem_range'_1.1 hd
    exact ⟨hpart, hdiv.1 this.1, by omega, hbound⟩
  · rintro ⟨hpart, hleast, hmost, hbound⟩
    refine ⟨⟨_, List.mem_range'_1.2 ⟨hdiv.2 hleast, ?_⟩, Table.mem_ofDegree.2 ⟨hpart, rfl⟩⟩, hbound⟩
    have := hdiv.2 hleast
    omega

/-! ## The search is a walk -/

section
open Program (Takes)

variable {visitor : Partition → Token → σ → Run σ} {done later : Partition}

theorem takes_withPart {parts : List Name} {part : Name} {next : Program Partition σ}
    {w : Walk Partition} (h : Takes (· = done ++ (parts ++ [part]) :: later) visitor next w) :
    Takes (· = done ++ parts :: later) visitor (withPart done.length part next) w := by
  refine Takes.between ?_ ?_ h
  · rintro _ rfl
    exact ⟨_, change_append _ _ rfl, rfl⟩
  · rintro _ rfl
    exact ⟨_, change_append _ _ (congrArg _ List.dropLast_concat), rfl⟩

/-- The search for the parts of a variable changes only its own list of parts. -/
theorem takes_divide (ht : t.size ≤ maximalCount) {next : Program Partition σ}
    {rest : List Name → Walk Partition}
    (h : ∀ parts, Takes (· = done ++ parts :: later) visitor next (rest parts)) :
    ∀ (count : Nat) (residual : Name) (bound : Option Name) (taken : List Name),
      Takes (· = done ++ taken.reverse :: later) visitor
        (divide t done.length next count residual bound)
        (partsOf t rest count residual bound taken)
  | 0, residual, bound, taken =>
    Takes.poll (Takes.attempt (fun _ _ => rfl) fun _ _ => Takes.skip)
  | 1, residual, bound, taken => by
    refine Takes.poll (Takes.attempt (fun _ _ => rfl) fun n _ => ?_)
    split
    · exact Takes.skip
    split
    · refine takes_withPart ?_
      rw [← List.reverse_cons]
      exact h _
    · exact Takes.skip
  | count + 2, residual, bound, taken => by
    refine Takes.poll (Takes.attempt (fun _ _ => rfl) fun n hn => ?_)
    split
    · exact Takes.skip
    rename_i hcount
    obtain ⟨hresidual, rfl⟩ := Table.degree_eq_ok_iff.1 hn
    have hword : t.degreeOf residual + 1 ≤ maximalCount := by
      have hlt : residual < t.size := of_decide_eq_true hresidual
      exact ((Nat.succ_le_succ (Table.degreeOf_le hresidual)).trans hlt).trans ht
    refine Takes.check (fun _ _ => divideUp_eq_ok (Nat.succ_pos _)) ?_
    refine Takes.check (fun _ _ => addWord_eq_ok hword) ?_
    refine Takes.check (fun _ _ => subWord_eq_ok (by omega)) ?_
    rw [degreeByDegree_eq (Table.degreeOf_le_target residual) (by omega) (by omega)]
    dsimp only
    rw [Walk.chooseFrom_eq_choose]
    refine Takes.each fun part _ => Takes.attempt (fun _ _ => rfl) fun left _ => ?_
    cases left with
    | none => exact Takes.skip
    | some left =>
      refine takes_withPart ?_
      rw [← List.reverse_cons]
      exact takes_divide ht h (count + 1) left (some part) (part :: taken)

/-- A variable is divided, and then the ones after it. -/
theorem takes_variable (ht : t.size ≤ maximalCount) {split : List Name} {degrees : List Nat}
    (hlen : split.length = degrees.length) {taken : Partition} (hvar : taken.length < split.length)
    (h : ∀ parts, Takes (· = taken.reverse ++ parts :: later) (canonically visitor)
      (if taken.length + 1 = split.length then .visit (canonically visitor)
        else divideFrom t split degrees visitor (taken.length + 1))
      (partsOfAll t ((split.zip degrees).drop (taken.length + 1)) (parts :: taken))) :
    Takes (· = taken.reverse ++ [] :: later) (canonically visitor)
      (divideFrom t split degrees visitor taken.length)
      (partsOfAll t ((split.zip degrees).drop taken.length) taken) := by
  have hzip : taken.length < (split.zip degrees).length := by
    rw [List.length_zip]
    omega
  rw [divideFrom, dif_pos hvar, List.drop_eq_getElem_cons hzip, List.getElem_zip, partsOfAll]
  refine Takes.check (fun _ _ => cell_eq_ok (List.getElem?_eq_getElem (hlen ▸ hvar))) ?_
  have hdivide := takes_divide ht h degrees[taken.length] split[taken.length] none []
  rwa [List.length_reverse] at hdivide

variable (visitor) in
/-- From a variable on, the search is the one for the variables from it on. -/
theorem takes_divideFrom (ht : t.size ≤ maximalCount) {split : List Name} {degrees : List Nat}
    (hlen : split.length = degrees.length) {k : Nat} {taken : Partition}
    (hk : split.length = taken.length + (k + 1)) :
    Takes (· = taken.reverse ++ List.replicate (k + 1) []) (canonically visitor)
      (divideFrom t split degrees visitor taken.length)
      (partsOfAll t ((split.zip degrees).drop taken.length) taken) := by
  induction k generalizing taken with
  | zero =>
    refine takes_variable ht hlen (by omega) fun parts => ?_
    rw [if_pos hk.symm, List.drop_eq_nil_of_le (by rw [List.length_zip]; omega), partsOfAll]
    refine Takes.visit ?_
    rintro _ rfl token s
    rw [List.reverse_cons]
    rfl
  | succ k ih =>
    refine takes_variable ht hlen (by omega) fun parts => ?_
    have hrec := @ih (parts :: taken) (by rw [List.length_cons]; omega)
    rw [List.reverse_cons, List.append_assoc] at hrec
    rw [if_neg (by omega)]
    exact hrec

end

theorem forEach_filter {α : Type} (visitor : α → Token → σ → Run σ) (p : α → Bool) (w : Walk α)
    (token : Token) (s : σ) :
    (w.filter p).forEach visitor token s =
      w.forEach (fun a token s => if p a then visitor a token s else ⟨.ok (), token, s⟩) token s := by
  induction w generalizing token s with
  | done => rfl
  | fail e => rfl
  | visit a => by_cases h : p a <;> simp [Walk.filter, Walk.forEach, h]
  | poll rest ih => simp only [Walk.filter, Walk.forEach, ih]
  | fork v w hv hw => simp only [Walk.filter, Walk.forEach, hv, hw]

/-- The search in memory is the search for partitions. -/
theorem partitions_eq (ht : t.size ≤ maximalCount) (split : List Name) {degrees : List Nat}
    (hd : ∀ d ∈ degrees, d ≤ wordCapacity) (visitor : Partition → Token → σ → Run σ) (token : Token)
    (s : σ) :
    partitions t split degrees visitor token s =
      (Search.partitions t split degrees).forEach visitor token s := by
  rw [partitions, Search.partitions]
  split
  · rfl
  rename_i hlen
  split
  · rfl
  rename_i hne
  rw [if_pos (by simpa using hd), forEach_filter]
  obtain ⟨k, hk⟩ : ∃ k, split.length = k + 1 :=
    Nat.exists_eq_succ_of_ne_zero fun h => hne (List.isEmpty_iff.2 (List.length_eq_zero_iff.1 h))
  have hlen := not_not.1 hlen
  have hstart : split.length = ([] : Partition).length + (k + 1) := hk.trans (Nat.zero_add _).symm
  have htakes := takes_divideFrom visitor ht hlen hstart
  refine htakes.start ?_ token s
  rw [List.map_const', ← hlen, hk]
  rfl

end Nonassoc.Checked
