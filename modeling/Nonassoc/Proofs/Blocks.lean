import Mathlib.Data.List.Sort
import Nonassoc.Proofs.Histories

/-!
# The blocks of a basis

A basis is filled by entering elements and by entering all generators of a table, and each of these
may fail (`Basis.Operation`). `Basis.Contiguous` says how the elements lie: those of a multidegree
are consecutive, going from the first one to the next of the same multidegree gives them all, and
factors stand before their product. It holds whatever has been tried (`Basis.run_contiguous`), and
an element can be entered just if nothing separates it from the others of its multidegree.
-/

namespace Nonassoc

open Multidegree (Name Table)

/-- The name of a generator, if the table has it. -/
def Multidegree.Table.generatorName? (t : Table) (g : Nat) : Option Name :=
  (Multidegree.unit t.target.generators g).toOption.bind t.name?

/-- The names of the generators that are below the target, in order. -/
def Multidegree.Table.generatorNames (t : Table) : List Name :=
  t.target.support.filterMap t.generatorName?

namespace Basis

/-! ## Operations -/

/-- What can be tried on a basis. -/
inductive Operation where
  | push (factors : Option (BasisId × BasisId)) (name : Name)
  | generators (t : Table)

/-- The failure of an operation, if it fails, and the basis after it. -/
def Operation.apply : Operation → Basis → Option BasisError × Basis
  | push factors name, b =>
    match b.push factors name with
    | .ok b' => (none, b')
    | .error e => (some e, b)
  | generators t, b => b.pushAllGenerators t

/-- The basis after some operations on the one without elements, whether they fail or not. -/
def run (t : Table) (operations : List Operation) : Basis :=
  operations.foldl (fun b o => (o.apply b).2) (empty t)

variable {t : Table} {b : Basis}

theorem Operation.apply_push_eq_none_iff {b' : Basis} {factors : Option (BasisId × BasisId)}
    {name : Name} :
    (push factors name).apply b = (none, b') ↔ b.push factors name = .ok b' := by
  cases hpush : b.push factors name <;> simp [Operation.apply, hpush]

/-- What cannot be entered changes nothing. -/
theorem Operation.apply_push_eq_some_iff {b' : Basis} {factors : Option (BasisId × BasisId)}
    {name : Name} {e : BasisError} :
    (push factors name).apply b = (some e, b') ↔ b.push factors name = .error e ∧ b = b' := by
  cases hpush : b.push factors name <;> simp [Operation.apply, hpush]

theorem Built.apply (h : b.Built t) (o : Operation) : (o.apply b).2.Built t := by
  cases o with
  | push factors name =>
    cases hpush : b.push factors name with
    | ok b' => simpa only [Operation.apply, hpush] using h.push hpush
    | error e => simpa only [Operation.apply, hpush] using h
  | generators t' => exact pushGenerators_inv (fun _ _ _ hb hpush => hb.push hpush) _ h

theorem built_run (t : Table) (operations : List Operation) : (run t operations).Built t := by
  unfold run
  have hfold : ∀ b : Basis, b.Built t →
      (operations.foldl (fun b o => (o.apply b).2) b).Built t := by
    induction operations with
    | nil => exact fun b hb => hb
    | cons o rest ih => exact fun b hb => ih _ (hb.apply o)
  exact hfold _ .empty

/-! ## Entering elements -/

theorem strangeFactor?_eq_none_iff {factors : Option (BasisId × BasisId)} :
    b.strangeFactor? factors = none ↔
      ∀ l r, factors = some (l, r) → b.contains l = true ∧ b.contains r = true := by
  cases factors with
  | none => simp [strangeFactor?]
  | some factors =>
    obtain ⟨l, r⟩ := factors
    cases hl : b.contains l <;> cases hr : b.contains r <;> simp [strangeFactor?, hl, hr]

/-- An element can be entered if and only if its multidegree is in the table, its factors are in the
basis, and it is the first one of its multidegree or the last element has the same one. -/
theorem Built.exists_push_iff (h : b.Built t) {factors : Option (BasisId × BasisId)} {name : Name} :
    (∃ b', b.push factors name = .ok b') ↔ t.contains name = true ∧
      (∀ l r, factors = some (l, r) → b.contains l = true ∧ b.contains r = true) ∧
        ((∀ x, b.nameOf x ≠ .ok name) ∨ b.nameOf (b.size - 1) = .ok name) := by
  constructor
  · intro hpush
    obtain ⟨b', hb'⟩ := hpush
    obtain ⟨first, past, hblock, hfactors, hnext, -⟩ := push_eq_ok_iff.1 hb'
    have hlt : name < b.blocks.size := (Array.getElem?_eq_some_iff.1 hblock).1
    have hmem : ∀ x, first ≤ x ∧ x < past ↔ b.nameOf x = .ok name := fun x =>
      (h.blocked.block name first past hblock x).trans nameOf_eq_ok_iff.symm
    refine ⟨decide_eq_true (h.blocked.size ▸ hlt), strangeFactor?_eq_none_iff.1 hfactors, ?_⟩
    by_cases hfirst : first < past
    · right
      have := hnext hfirst
      exact (hmem _).1 (by omega)
    · left
      intro x hx
      have := (hmem x).2 hx
      omega
  · intro hcan
    obtain ⟨hname, hfactors, hlast⟩ := hcan
    refine h.exists_push factors hname (strangeFactor?_eq_none_iff.2 hfactors) fun x hx => ?_
    exact hlast.resolve_left fun hnone => hnone x hx

theorem pushGenerators_cons (t : Table) (g : Nat) (rest : List Nat) (b : Basis) :
    pushGenerators t (g :: rest) b =
      match t.generatorName? g with
      | none => pushGenerators t rest b
      | some name =>
        match b.push none name with
        | .error e => (some e, b)
        | .ok b' => pushGenerators t rest b' := rfl

/-- Generators are entered up to the first one that cannot be. -/
theorem entries_pushGenerators (t : Table) (generators : List Nat) (b : Basis) :
    ∃ done rest,
      generators.filterMap t.generatorName? = done ++ rest ∧
      (pushGenerators t generators b).2.entries.toList =
        b.entries.toList ++ done.map (⟨none, ·⟩) ∧
      match (pushGenerators t generators b).1 with
      | none => rest = []
      | some e => ∃ name more, rest = name :: more ∧
          (pushGenerators t generators b).2.push none name = .error e := by
  induction generators generalizing b with
  | nil => exact ⟨[], [], rfl, by simp [pushGenerators], rfl⟩
  | cons g generators ih =>
    rw [pushGenerators_cons]
    cases hg : t.generatorName? g with
    | none =>
      rw [List.filterMap_cons_none hg]
      exact ih b
    | some name =>
      rw [List.filterMap_cons_some hg]
      simp only
      cases hpush : b.push none name with
      | error e => exact ⟨[], _, rfl, by simp, name, _, rfl, hpush⟩
      | ok b' =>
        obtain ⟨done, rest, hlist, hentries, hrest⟩ := ih b'
        refine ⟨name :: done, rest, by rw [hlist, List.cons_append], ?_, hrest⟩
        simp [hentries, entries_push hpush]

theorem entries_pushGenerators_of_none {generators : List Nat}
    (h : (pushGenerators t generators b).1 = none) :
    (pushGenerators t generators b).2.entries.toList =
      b.entries.toList ++ (generators.filterMap t.generatorName?).map (⟨none, ·⟩) := by
  obtain ⟨done, rest, hnames, hentries, hrest⟩ := entries_pushGenerators t generators b
  rw [h] at hrest
  rw [hnames, show rest = [] from hrest, List.append_nil]
  exact hentries

/-! ## Factors -/

/-- Whether an element is a factor of another one. -/
def IsFactor (b : Basis) (y x : BasisId) : Prop :=
  ∃ l r, b.factors x = .ok (some (l, r)) ∧ (y = l ∨ y = r)

theorem Built.factors_lt (h : b.Built t) {x l r : BasisId}
    (hx : b.factors x = .ok (some (l, r))) : l < x ∧ r < x := by
  induction h with
  | empty =>
    obtain ⟨e, he, -⟩ := factors_eq_ok_iff.1 hx
    simp [Basis.empty] at he
  | push _ hpush ih =>
    rcases (factors_push hpush).1 hx with hx | ⟨rfl, hfactors⟩
    · exact ih hx
    · obtain ⟨-, -, -, hstrange, -⟩ := push_eq_ok_iff.1 hpush
      have hcontains := strangeFactor?_eq_none_iff.1 hstrange l r hfactors.symm
      exact hcontains.imp of_decide_eq_true of_decide_eq_true

/-! ## Blocks -/

/-- From an element on, the next one of the same multidegree again and again up to the last one. -/
inductive Walks (b : Basis) : Option BasisId → List BasisId → Prop
  | done : Walks b none []
  | next {x : BasisId} {next : Option BasisId} {rest : List BasisId} :
      b.nextOfName? x = .ok next → Walks b next rest → Walks b (some x) (x :: rest)

/-- The elements of every multidegree are consecutive, and factors stand before their product. -/
structure Contiguous (t : Table) (b : Basis) : Prop where
  elements : ∀ n, b.ofName n = (List.range b.size).filter (b.nameOf · = .ok n)
  consecutive : ∀ n, ∃ first, b.ofName n = List.range' first (b.countOfName n)
  count : ∀ n, b.countOfName n = (b.ofName n).length
  walks : ∀ n, Walks b (b.firstOfName? n) (b.ofName n)
  disjoint : ∀ m n, m ≠ n → (b.ofName m).Disjoint (b.ofName n)
  partition : (t.names.flatMap b.ofName).Perm (List.range b.size)
  factors_lt : ∀ x l r, b.factors x = .ok (some (l, r)) → l < x ∧ r < x
  unfolds : WellFounded b.IsFactor

theorem lt_size_of_nameOf {x : BasisId} {n : Name} (h : b.nameOf x = .ok n) : x < b.size :=
  of_decide_eq_true (contains_iff.2 ⟨n, h⟩)

theorem Built.walks_from (h : b.Built t) {n : Name} {first past : Nat}
    (hblock : b.blocks[n]? = some (first, past)) (k : Nat) {x : Nat} (hx : first ≤ x)
    (hk : past - x = k) : Walks b (if x < past then some x else none) (List.range' x k) := by
  induction k generalizing x with
  | zero =>
    rw [if_neg (by omega)]
    exact .done
  | succ k ih =>
    have hlt : x < past := by omega
    have hname : b.nameOf x = .ok n :=
      nameOf_eq_ok_iff.2 ((h.blocked.block n first past hblock x).1 ⟨hx, hlt⟩)
    rw [if_pos hlt, List.range'_succ]
    have hnext : b.nextOfName? x = .ok (if x + 1 < past then some (x + 1) else none) := by
      simp [nextOfName?, hname, hblock, bind, Except.bind, pure, Except.pure]
    exact .next hnext (ih (by omega) (by omega))

theorem Built.walks (h : b.Built t) (n : Name) : Walks b (b.firstOfName? n) (b.ofName n) := by
  unfold firstOfName? ofName block
  cases hblock : b.blocks[n]? with
  | none => exact .done
  | some block => exact h.walks_from hblock _ (Nat.le_refl _) rfl

theorem Built.contiguous (h : b.Built t) : b.Contiguous t where
  elements n := by
    have hrange : (List.range b.size).Pairwise (· < ·) := List.pairwise_lt_range
    refine (List.pairwise_lt_range').sortedLT.eq_of_mem_iff (hrange.filter _).sortedLT fun x => ?_
    rw [List.mem_filter, List.mem_range, decide_eq_true_eq, and_iff_right_of_imp lt_size_of_nameOf]
    exact h.mem_ofName
  consecutive n := ⟨_, rfl⟩
  count n := List.length_range'.symm
  walks := h.walks
  disjoint m n hne x hm hn := by
    have hnames := (h.mem_ofName.1 hm).symm.trans (h.mem_ofName.1 hn)
    exact hne (Except.ok.inj hnames)
  partition := by
    refine (List.perm_ext_iff_of_nodup ?_ List.nodup_range).2 fun x => ?_
    · refine List.nodup_flatMap.2 ⟨fun n _ => nodup_ofName b n, ?_⟩
      refine List.nodup_range.imp fun hne x hm hn => ?_
      exact hne (Except.ok.inj ((h.mem_ofName.1 hm).symm.trans (h.mem_ofName.1 hn)))
    · rw [List.mem_flatMap, List.mem_range]
      constructor
      · intro hx
        obtain ⟨n, -, hx⟩ := hx
        exact lt_size_of_nameOf (h.mem_ofName.1 hx)
      · intro hx
        obtain ⟨n, hn⟩ := contains_iff.1 (decide_eq_true hx)
        have hcontains := of_decide_eq_true (h.contains_of_nameOf hn)
        exact ⟨n, List.mem_range.2 hcontains, h.mem_ofName.2 hn⟩
  factors_lt _ _ _ hx := h.factors_lt hx
  unfolds := by
    refine Subrelation.wf (fun {y x} hfactor => ?_) Nat.lt_wfRel.wf
    obtain ⟨l, r, hx, hy⟩ := hfactor
    have hlt := h.factors_lt hx
    rcases hy with rfl | rfl
    · exact hlt.1
    · exact hlt.2

/-- Whatever has been tried, the blocks of a basis are its multidegrees' elements. An element can be
entered if and only if its multidegree is in the table, its factors are in the basis, and it is the
first one of its multidegree or the last element has the same one; if it cannot, nothing changes.
Generators that cannot all be entered are entered up to the first one that cannot. -/
theorem run_contiguous (t : Table) (operations : List Operation) :
    (run t operations).Contiguous t ∧
    (∀ factors name,
      ((∃ b, (run t operations).push factors name = .ok b) ↔ t.contains name = true ∧
        (∀ l r, factors = some (l, r) →
          (run t operations).contains l = true ∧ (run t operations).contains r = true) ∧
        ((∀ x, (run t operations).nameOf x ≠ .ok name) ∨
          (run t operations).nameOf ((run t operations).size - 1) = .ok name)) ∧
      (∀ b, (Operation.push factors name).apply (run t operations) = (none, b) →
        b.entries = (run t operations).entries.push ⟨factors, name⟩) ∧
      ∀ e b, (Operation.push factors name).apply (run t operations) = (some e, b) →
        b = run t operations) ∧
    ∀ t' b,
      ((Operation.generators t').apply (run t operations) = (none, b) →
        b.entries.toList =
          (run t operations).entries.toList ++ t'.generatorNames.map (⟨none, ·⟩)) ∧
      ∀ e, (Operation.generators t').apply (run t operations) = (some e, b) →
        ∃ done name rest, t'.generatorNames = done ++ name :: rest ∧
          b.entries.toList = (run t operations).entries.toList ++ done.map (⟨none, ·⟩) ∧
          b.push none name = .error e := by
  refine ⟨(built_run t operations).contiguous, fun factors name =>
    ⟨(built_run t operations).exists_push_iff, fun b hb => ?_, fun e b hb => ?_⟩, fun t' b => ?_⟩
  · exact entries_push (Operation.apply_push_eq_none_iff.1 hb)
  · exact (Operation.apply_push_eq_some_iff.1 hb).2.symm
  · refine ⟨fun hb => ?_, fun e hb => ?_⟩
    · replace hb : pushGenerators t' t'.target.support (run t operations) = (none, b) := hb
      have hentries := entries_pushGenerators_of_none (congrArg Prod.fst hb)
      rwa [hb] at hentries
    · replace hb : pushGenerators t' t'.target.support (run t operations) = (some e, b) := hb
      obtain ⟨done, rest, hnames, hentries, hrest⟩ :=
        entries_pushGenerators t' t'.target.support (run t operations)
      rw [hb] at hentries hrest
      obtain ⟨name, more, rfl, hpush⟩ := hrest
      exact ⟨done, name, more, hnames, hentries, hpush⟩

end Basis

end Nonassoc
