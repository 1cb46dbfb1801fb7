import Nonassoc.Proofs.Choices
import Nonassoc.Proofs.Names
import Nonassoc.Proofs.Results
import Nonassoc.Proofs.Walk
import Nonassoc.Search.Substitution

/-!
# The substitutions of a partition

`Basis.Built t b` says that the basis was entered element by element over the names of `t`. Then the
block of a name holds just the elements of that name (`Basis.mem_ofName`), and
`Search.substitutions` puts into every slot each element of the slot's name, in all ways and in each
way once (`Search.mem_substitutions`, `Search.nodup_substitutions`).
-/

namespace Nonassoc

open Multidegree (Name Table)

namespace Basis

/-- The bases that can be entered over the names of a table. Generators are entered as any other
element (`Built.pushAllGenerators`). -/
inductive Built (t : Table) : Basis → Prop
  | empty : Built t (empty t)
  | push {b b' : Basis} {factors : Option (BasisId × BasisId)} {name : Name} :
      Built t b → b.push factors name = .ok b' → Built t b'

variable {t : Table} {b : Basis}

/-- What every entered element keeps, the generators keep. -/
theorem pushGenerators_inv {P : Basis → Prop}
    (hpush : ∀ b b' name, P b → b.push none name = .ok b' → P b') (generators : List Nat)
    (hb : P b) : P (pushGenerators t generators b).2 := by
  induction generators generalizing b with
  | nil => exact hb
  | cons g rest ih =>
    simp only [pushGenerators]
    split
    · exact ih hb
    · split
      · exact hb
      · exact ih (hpush _ _ _ hb ‹_›)

theorem Built.pushAllGenerators (h : b.Built t) : (b.pushAllGenerators t).2.Built t :=
  pushGenerators_inv (fun _ _ _ hb hpush => hb.push hpush) _ h

/-- What entering an element needs, and what it does. -/
theorem push_eq_ok_iff {b' : Basis} {factors : Option (BasisId × BasisId)} {name : Name} :
    b.push factors name = .ok b' ↔ ∃ first past, b.blocks[name]? = some (first, past) ∧
      b.strangeFactor? factors = none ∧ (first < past → past = b.size) ∧
        b' = {
          entries := b.entries.push ⟨factors, name⟩
          blocks := b.blocks.setIfInBounds name
            (if first < past then first else b.size, b.size + 1) } := by
  unfold push
  cases hblock : b.blocks[name]? with
  | none => simp
  | some block =>
    obtain ⟨first, past⟩ := block
    cases hstrange : b.strangeFactor? factors with
    | some x => simp
    | none =>
      by_cases hnext : first < past → past = b.size
      · have hc : ¬ (first < past && past != b.size) = true := by simpa using hnext
        simpa [hc, eq_comm] using fun _ => hnext
      · have hc : (first < past && past != b.size) = true := by simpa using hnext
        simp [hc, hnext]

theorem push_eq_ok {b' : Basis} {factors : Option (BasisId × BasisId)} {name : Name}
    (h : b.push factors name = .ok b') :
    ∃ first past, b.blocks[name]? = some (first, past) ∧ (first < past → past = b.size) ∧
      b' = {
        entries := b.entries.push ⟨factors, name⟩
        blocks := b.blocks.setIfInBounds name
          (if first < past then first else b.size, b.size + 1) } := by
  obtain ⟨first, past, hblock, -, hnext, hb⟩ := push_eq_ok_iff.1 h
  exact ⟨first, past, hblock, hnext, hb⟩

/-- There is a block for every name, and it holds the elements of that name. -/
structure Blocked (t : Table) (b : Basis) : Prop where
  size : b.blocks.size = t.size
  block : ∀ n first past, b.blocks[n]? = some (first, past) →
    ∀ x, first ≤ x ∧ x < past ↔ ∃ e : BasisEntry, b.entries[x]? = some e ∧ e.name = n
  names : ∀ e ∈ b.entries, e.name < t.size

theorem Blocked.push {b' : Basis} {factors : Option (BasisId × BasisId)} {name : Name}
    (hb : b.Blocked t) (h : b.push factors name = .ok b') : b'.Blocked t := by
  obtain ⟨first, past, hblock, hnext, rfl⟩ := push_eq_ok h
  have hname : name < b.blocks.size := (Array.getElem?_eq_some_iff.1 hblock).1
  have hold : ∀ x e, b.entries[x]? = some e → x < b.entries.size :=
    fun x e he => (Array.getElem?_eq_some_iff.1 he).1
  refine ⟨?_, fun n f p hn x => ?_, fun e he => ?_⟩
  · rw [Array.size_setIfInBounds, hb.size]
  · rw [Array.getElem?_push]
    rw [Array.getElem?_setIfInBounds] at hn
    split at hn
    · -- the block of the new element's name is extended by one, or begins with it
      rename_i heq
      subst heq
      rw [Option.some_inj, Prod.mk.injEq] at hn
      obtain ⟨rfl, rfl⟩ := hn
      have hx := hb.block name first past hblock x
      rw [Basis.size] at hnext ⊢
      by_cases heq : x = b.entries.size
      · rw [if_pos heq]
        refine ⟨fun _ => ⟨_, rfl, rfl⟩, fun _ => ⟨?_, by omega⟩⟩
        rw [heq]
        split
        · rename_i hlt
          exact hnext hlt ▸ hlt.le
        · exact Nat.le_refl _
      · rw [if_neg heq, ← hx]
        split <;> omega
    · rename_i hne
      rw [hb.block n f p hn x]
      split
      · rename_i heq
        subst heq
        refine ⟨fun hm => ?_, fun hm => ?_⟩
        · obtain ⟨e, he, -⟩ := hm
          exact absurd (hold _ e he) (Nat.lt_irrefl _)
        · obtain ⟨e, he, hen⟩ := hm
          exact absurd ((congrArg BasisEntry.name (Option.some_inj.1 he)).trans hen) hne
      · exact Iff.rfl
  · rcases Array.mem_push.1 he with he | rfl
    · exact hb.names e he
    · exact hb.size ▸ hname

theorem Built.blocked (h : b.Built t) : b.Blocked t := by
  induction h with
  | empty =>
    refine ⟨by simp [Basis.empty], fun n first past hn x => ?_, by simp [Basis.empty]⟩
    rw [Basis.empty, Array.getElem?_replicate] at hn
    split at hn
    · cases hn
      simp [Basis.empty]
    · cases hn
  | push _ hpush ih => exact ih.push hpush

theorem nameOf_eq_ok_iff {x : BasisId} {n : Name} :
    b.nameOf x = .ok n ↔ ∃ e, b.entries[x]? = some e ∧ e.name = n := by
  rw [nameOf, bind_eq_ok, entry]
  cases b.entries[x]? with
  | none => simp
  | some e => simp [pure, Except.pure]

theorem contains_iff {x : BasisId} : b.contains x = true ↔ ∃ n, b.nameOf x = .ok n := by
  simp only [nameOf_eq_ok_iff]
  constructor
  · exact fun h => ⟨_, _, Array.getElem?_eq_getElem (of_decide_eq_true h), rfl⟩
  · rintro ⟨n, e, he, -⟩
    exact decide_eq_true (Array.getElem?_eq_some_iff.1 he).1

/-- The multidegree of an element of the basis. -/
def nameAt (b : Basis) (x : BasisId) : Name :=
  match b.nameOf x with
  | .ok n => n
  | .error _ => 0

theorem nameOf_eq_ok_iff_nameAt {x : BasisId} {n : Name} :
    b.nameOf x = .ok n ↔ b.contains x = true ∧ n = b.nameAt x := by
  rw [contains_iff, nameAt]
  refine ⟨fun h => ?_, fun hl => ?_⟩
  · rw [h]
    exact ⟨⟨n, rfl⟩, rfl⟩
  · obtain ⟨⟨m, hm⟩, h⟩ := hl
    rw [hm] at h ⊢
    rw [h]

theorem Built.contains_nameAt (h : b.Built t) {x : BasisId} (hx : b.contains x = true) :
    t.contains (b.nameAt x) = true := by
  obtain ⟨n, hn⟩ := contains_iff.1 hx
  obtain ⟨e, he, hen⟩ := nameOf_eq_ok_iff.1 hn
  rw [← (nameOf_eq_ok_iff_nameAt.1 hn).2, ← hen]
  exact decide_eq_true (h.blocked.names e (Array.mem_of_getElem? he))

theorem Built.contains_of_nameOf (h : b.Built t) {x : BasisId} {n : Name}
    (hx : b.nameOf x = .ok n) : t.contains n = true := by
  obtain ⟨hc, rfl⟩ := nameOf_eq_ok_iff_nameAt.1 hx
  exact h.contains_nameAt hc

/-- The block of a name holds the elements of that name. -/
theorem Built.mem_ofName (h : b.Built t) {x : BasisId} {n : Name} :
    x ∈ b.ofName n ↔ b.nameOf x = .ok n := by
  rw [ofName, mem_range'_sub, nameOf_eq_ok_iff, block]
  cases hn : b.blocks[n]? with
  | some block => exact h.blocked.block n _ _ hn x
  | none =>
    refine ⟨fun hx => absurd hx.2 (Nat.not_lt_zero x), ?_⟩
    rintro ⟨e, he, rfl⟩
    have := h.blocked.names e (Array.mem_of_getElem? he)
    rw [← h.blocked.size] at this
    exact absurd this (Nat.not_lt.2 (Array.getElem?_eq_none_iff.1 hn))

theorem nodup_ofName (b : Basis) (n : Name) : (b.ofName n).Nodup := List.nodup_range'

end Basis

namespace Search

open Walk (Yields)

variable {t : Table} {b : Basis}

theorem yields_fillRow {α : Type} {next : List BasisId → Walk α} (spec : List BasisId → List α)
    (names : List Name) (taken : List BasisId)
    (h : ∀ row ∈ choices (names.map b.ofName),
      Yields (next (taken.reverse ++ row)) (spec (taken.reverse ++ row))) :
    Yields (fillRow b next names taken)
      ((choices (names.map b.ofName)).flatMap fun row => spec (taken.reverse ++ row)) := by
  induction names generalizing taken with
  | nil =>
    have := h [] (by simp [choices])
    rw [List.append_nil] at this
    exact Yields.poll (this.congr (by simp [choices]))
  | cons name rest ih =>
    apply Yields.poll
    simp only [List.map_cons, choices, List.flatMap_assoc, List.flatMap_map]
    apply Yields.chooseFrom
    intro x hx
    have htaken : ∀ row, (x :: taken).reverse ++ row = taken.reverse ++ x :: row := by
      intro row
      rw [List.reverse_cons, List.append_assoc, List.singleton_append]
    have hrec := ih (x :: taken) fun row hrow => by
      rw [htaken]
      exact h _ (List.mem_flatMap.2 ⟨x, hx, List.mem_map.2 ⟨row, hrow, rfl⟩⟩)
    simp only [htaken] at hrec
    exact hrec

/-- The ways to fill the slots of a partition, as a list. -/
def substitutionLists (b : Basis) (p : Partition) : List Substitution :=
  choices (p.map fun names => choices (names.map b.ofName))

theorem yields_fillRows (p : Partition) (taken : Substitution) :
    Yields (fillRows b p taken) ((substitutionLists b p).map (taken.reverse ++ ·)) := by
  induction p generalizing taken with
  | nil => exact Yields.poll ((Yields.visit _).congr (by simp [substitutionLists, choices]))
  | cons names rest ih =>
    rw [fillRows, substitutionLists, List.map_cons, choices, List.map_flatMap]
    simp only [List.map_map]
    refine yields_fillRow
      (fun row => (substitutionLists b rest).map ((taken.reverse ++ ·) ∘ (row :: ·)))
      names [] fun row _ => ?_
    refine (ih (row :: taken)).congr (List.map_congr_left fun s _ => ?_)
    rw [List.reverse_cons, List.append_assoc]
    rfl

theorem yields_substitutions (p : Partition) :
    Yields (substitutions b p) (substitutionLists b p) :=
  (yields_fillRows p []).congr (by simp)

theorem failure?_substitutions (p : Partition) : (substitutions b p).failure? = none :=
  (yields_substitutions p).failure?

/-- The multidegrees of the slots of a substitution. -/
def namesOf (b : Basis) (s : Substitution) : Partition := s.map (·.map b.nameAt)

theorem forall₂_nameOf_iff {row : List BasisId} {names : List Name} :
    List.Forall₂ (fun x n => b.nameOf x = .ok n) row names ↔
      (∀ x ∈ row, b.contains x = true) ∧ names = row.map b.nameAt := by
  simp only [Basis.nameOf_eq_ok_iff_nameAt, List.forall₂_and_left, forall₂_eq_map_iff]

theorem mem_substitutions (h : b.Built t) {p : Partition} {s : Substitution} :
    s ∈ (substitutions b p).toList ↔
      (∀ row ∈ s, ∀ x ∈ row, b.contains x = true) ∧ p = namesOf b s := by
  simp only [(yields_substitutions p).toList, substitutionLists, mem_choices_map, h.mem_ofName,
    forall₂_nameOf_iff, List.forall₂_and_left, forall₂_eq_map_iff, namesOf]

theorem nodup_substitutions (p : Partition) : (substitutions b p).toList.Nodup := by
  rw [(yields_substitutions p).toList]
  apply nodup_choices
  intro rows hrows
  obtain ⟨names, -, rfl⟩ := List.mem_map.1 hrows
  apply nodup_choices
  intro xs hxs
  obtain ⟨n, -, rfl⟩ := List.mem_map.1 hxs
  exact b.nodup_ofName n

end Search

end Nonassoc
