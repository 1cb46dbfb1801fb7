import Nonassoc.Proofs.Failures
import Nonassoc.Proofs.Homogeneity
import Nonassoc.Proofs.Products

/-!
# Which products a run looks up

The value of a proper part of a term has a multidegree below the target (`countAt_lt_target`), so a
run looks up no product of the target's own multidegree. `PartialAlgebra.IsBelow` tells which
products it may look up. With two tables that agree there, a run has the same outcome; a run that
does not fail has the same outcome with more products; and a run that fails for want of a product
names one of these (`generate_lookups`).
-/

namespace Nonassoc

open Multidegree (Name Table)
open Search (Partition Substitution IsSlotTable splits partitions substitutions reached)

/-! ## Multidegrees of the parts of a term -/

namespace Pattern

/-- The multiplicities of what the leaves of a pattern read, added up. -/
def countAt (a : PartialAlgebra) (s : Substitution) (m : Matching) (p : Pattern) : Nat → Nat :=
  (p.leaves.map (m.read 0 (s.family fun b => a.table.count (a.basis.nameAt b)))).sum

variable {a : PartialAlgebra} {s : Substitution} {m : Matching}

theorem countAt_product (l r : Pattern) :
    (product l r).countAt a s m = l.countAt a s m + r.countAt a s m := by
  rw [countAt, leaves, List.map_append, List.sum_append]
  rfl

theorem countAt_lt_of_product {l r : Pattern} {c : Nat → Nat}
    (h : (product l r).countAt a s m < c) : l.countAt a s m < c ∧ r.countAt a s m < c := by
  rw [countAt_product] at h
  exact ⟨(self_le_add_right _ _).trans_lt h, (self_le_add_left _ _).trans_lt h⟩

section
variable {target : Name} {degrees : List Nat}
  (hs : IsSlotTable a.table a.basis target degrees s) (hm : m ∈ matchingLists degrees)
include hs hm

/-- A whole term has the multidegree of the target. -/
theorem countAt_eq_target {p : Pattern} (hp : p.IsNumbered degrees) :
    p.countAt a s m = a.table.count target := by
  rw [countAt, sum_leaves hp, placesSum_read hm, placesSum_family hs.lengths, hs.sum]

/-- A part of a term does not have degree zero. -/
theorem countAt_ne_zero {p : Pattern} (hp : ∀ q ∈ p.leaves, q.2 < degrees.getD q.1 0) :
    p.countAt a s m ≠ 0 := by
  induction p with
  | leaf v k =>
    obtain ⟨j, hj, hslot⟩ := exists_slot_of_mem hm (hp (v, k) (List.mem_singleton_self _))
    obtain ⟨b, hb⟩ := Search.exists_slot hs.lengths hj
    obtain ⟨row, hrow, hmem⟩ := Search.mem_of_slot hb
    have hpos := (hs.cells row hrow b hmem).2
    have hcount : (leaf v k).countAt a s m = a.table.count (a.basis.nameAt b) := by
      simp [countAt, leaves, Matching.read_of_slot _ _ hslot, Substitution.family_of_slot hb]
    intro hzero
    rw [hcount] at hzero
    simp [Table.degreeOf, hzero] at hpos
  | product l r hl _ =>
    intro hzero
    refine hl (fun q hq => hp q (List.mem_append_left _ hq)) (funext fun g => ?_)
    rw [countAt_product] at hzero
    exact (Nat.add_eq_zero_iff.1 (congrFun hzero g)).1

/-- Both factors of a term are below the target. -/
theorem countAt_lt_target {l r : Pattern} (hp : (product l r).IsNumbered degrees) :
    l.countAt a s m < a.table.count target ∧ r.countAt a s m < a.table.count target := by
  have hsum := countAt_eq_target hs hm hp
  have hplaces : ∀ q ∈ l.leaves ++ r.leaves, q.2 < degrees.getD q.1 0 :=
    fun q hq => (hp.mem_iff q.1 q.2).1 hq
  have hl := countAt_ne_zero hs hm fun q hq => hplaces q (List.mem_append_left _ hq)
  have hr := countAt_ne_zero hs hm fun q hq => hplaces q (List.mem_append_right _ hq)
  rw [← hsum, countAt_product]
  exact ⟨lt_add_of_pos_right _ (pos_iff_ne_zero.2 hr), lt_add_of_pos_left _ (pos_iff_ne_zero.2 hl)⟩

end

end Pattern

/-! ## Products below the target -/

namespace PartialAlgebra

/-- The same algebra with other known products. -/
def withProducts (a : PartialAlgebra) (p : ProductTable) : PartialAlgebra := { a with products := p }

@[simp] theorem withProducts_field (a : PartialAlgebra) (p : ProductTable) :
    (a.withProducts p).field = a.field := rfl

@[simp] theorem withProducts_table (a : PartialAlgebra) (p : ProductTable) :
    (a.withProducts p).table = a.table := rfl

@[simp] theorem withProducts_basis (a : PartialAlgebra) (p : ProductTable) :
    (a.withProducts p).basis = a.basis := rfl

/-- The product of two basis elements has a multidegree below the target's. -/
def IsBelow (a : PartialAlgebra) (target : Name) (l r : BasisId) : Prop :=
  ∃ m n k, a.basis.nameOf l = .ok m ∧ a.basis.nameOf r = .ok n ∧ a.table.add m n = .ok (some k) ∧
    a.table.le k target = .ok true ∧ k ≠ target

variable {a : PartialAlgebra} {target : Name}

theorem isBelow_of_hasCount (ha : a.basis.Built a.table) (ht : a.table.contains target = true)
    {c d : Nat → Nat} {l r : BasisId} (hl : a.HasCount c l) (hr : a.HasCount d r)
    (h : c + d < a.table.count target) : a.IsBelow target l r := by
  obtain ⟨hcl, rfl⟩ := hl
  obtain ⟨hcr, rfl⟩ := hr
  obtain ⟨k, hk, hcount⟩ := Table.exists_name fun g => (h.le g).trans (Table.count_le_target target g)
  refine ⟨_, _, k, Basis.nameOf_eq_ok_iff_nameAt.2 ⟨hcl, rfl⟩,
    Basis.nameOf_eq_ok_iff_nameAt.2 ⟨hcr, rfl⟩,
    (Table.add_eq_some_iff (ha.contains_nameAt hcl) (ha.contains_nameAt hcr)).2 ⟨hk, hcount.symm⟩,
    (Table.le_eq_ok_true_iff hk ht).2 (hcount ▸ h.le), ?_⟩
  rintro rfl
  exact h.ne hcount.symm

theorem IsBelow.exists_degreeOf_lt (ha : a.basis.Built a.table)
    (ht : a.table.contains target = true) {l r : BasisId} (h : a.IsBelow target l r) :
    ∃ m n k, a.basis.nameOf l = .ok m ∧ a.basis.nameOf r = .ok n ∧
      a.table.add m n = .ok (some k) ∧ a.table.le k target = .ok true ∧
      a.table.contains k = true ∧ a.table.degreeOf k < a.table.degreeOf target := by
  obtain ⟨m, n, k, hm, hn, hadd, hle, hne⟩ := h
  obtain ⟨hcl, rfl⟩ := Basis.nameOf_eq_ok_iff_nameAt.1 hm
  obtain ⟨hcr, rfl⟩ := Basis.nameOf_eq_ok_iff_nameAt.1 hn
  have hk := ((Table.add_eq_some_iff (ha.contains_nameAt hcl) (ha.contains_nameAt hcr)).1 hadd).1
  refine ⟨_, _, k, hm, hn, hadd, hle, hk, Table.degreeOf_lt (lt_of_le_of_ne ?_ fun hcount => ?_)⟩
  · exact (Table.le_eq_ok_true_iff hk ht).1 hle
  · exact hne (Table.eq_of_count hk ht hcount)

/-! ## Two tables -/

/-- Where a run may look, a table has the same product, or the missing one is an error in `E`. -/
def AgreesBelow (a : PartialAlgebra) (target : Name) (E : Failure → Prop) (p : ProductTable) : Prop :=
  ∀ l r, a.IsBelow target l r → p.product? l r = a.products.product? l r ∨
    a.products.product? l r = none ∧ E (.algebra (.unknownProduct l r))

variable {E : Failure → Prop} {p : ProductTable}

theorem sameUnless_multiply (hp : a.AgreesBelow target E p) {u v : Element}
    (h : ∀ x ∈ u.terms, ∀ y ∈ v.terms, a.IsBelow target x.1 y.1) :
    SameUnless (fun e => E (.algebra e)) (a.multiply u v) ((a.withProducts p).multiply u v) := by
  refine SameUnless.foldlM (fun x hx sum => SameUnless.foldlM (fun y hy sum => ?_) sum) _
  rcases hp x.1 y.1 (h x hx y hy) with heq | ⟨hnone, hE⟩
  · simp only [addProduct, withProducts, heq]
    exact .refl _
  · simp only [addProduct, hnone]
    exact SameUnless.error (E := fun e => E (.algebra e)) hE _

end PartialAlgebra

/-! ## Evaluation -/

namespace Linearization

section
variable {a : PartialAlgebra} (ha : a.Built) {target : Name} (ht : a.table.contains target = true)
  {degrees : List Nat} {s : Substitution} (hs : IsSlotTable a.table a.basis target degrees s)
  {m : Matching} {E : Failure → Prop} {p : ProductTable} (hp : a.AgreesBelow target E p)
include ha ht hs

/-- The terms of the factors of a part below the target have products below the target. -/
theorem isBelow_of_evaluatePattern {l r : Pattern}
    (hlt : (Pattern.product l r).countAt a s m < a.table.count target) {u v : Element}
    (hu : evaluatePattern a s m l = .ok u) (hv : evaluatePattern a s m r = .ok v) :
    ∀ x ∈ u.terms, ∀ y ∈ v.terms, a.IsBelow target x.1 y.1 := by
  have hcells : ∀ row ∈ s, ∀ x ∈ row, a.basis.contains x = true :=
    fun row hrow x hx => (hs.cells row hrow x hx).1
  intro x hx y hy
  rw [Pattern.countAt_product] at hlt
  exact PartialAlgebra.isBelow_of_hasCount ha.basis ht
    (hasCount_of_evaluatePattern ha hcells hu x hx)
    (hasCount_of_evaluatePattern ha hcells hv y hy) hlt

include hp in
theorem sameUnless_evaluatePattern {q : Pattern} (hlt : q.countAt a s m < a.table.count target) :
    SameUnless E (evaluatePattern a s m q) (evaluatePattern (a.withProducts p) s m q) := by
  induction q with
  | leaf v k => exact .refl _
  | product l r hl hr =>
    obtain ⟨hltl, hltr⟩ := Pattern.countAt_lt_of_product hlt
    refine (hl hltl).bind fun u hu => (hr hltr).bind fun v hv => ?_
    exact (PartialAlgebra.sameUnless_multiply hp
      (isBelow_of_evaluatePattern ha ht hs hlt hu hv)).mapError

/-- All that a part below the target may lack is a product below the target. -/
theorem evaluatePattern_eq_error (hm : m ∈ matchingLists degrees) {q : Pattern}
    (hq : ∀ x ∈ q.leaves, x.2 < degrees.getD x.1 0)
    (hlt : q.countAt a s m < a.table.count target) {f : Failure}
    (h : evaluatePattern a s m q = .error f) :
    ∃ l r, f = .algebra (.unknownProduct l r) ∧ a.products.product? l r = none ∧
      a.IsBelow target l r := by
  induction q with
  | leaf v k =>
    obtain ⟨j, hj, hslot⟩ := exists_slot_of_mem hm (hq (v, k) (List.mem_singleton_self _))
    obtain ⟨b, hb⟩ := Search.exists_slot hs.lengths hj
    rw [evaluatePattern_leaf hslot hb] at h
    cases h
  | product l r hl hr =>
    obtain ⟨hltl, hltr⟩ := Pattern.countAt_lt_of_product hlt
    rw [evaluatePattern, bind_eq_error] at h
    rcases h with h | ⟨u, hu, h⟩
    · exact hl (fun x hx => hq x (List.mem_append_left _ hx)) hltl h
    · rcases bind_eq_error.1 h with h | ⟨v, hv, h⟩
      · exact hr (fun x hx => hq x (List.mem_append_right _ hx)) hltr h
      · obtain ⟨e, hproduct, rfl⟩ := mapError_eq_error.1 h
        obtain ⟨x, hx, y, hy, hnone, rfl⟩ := PartialAlgebra.multiply_eq_error hproduct
        exact ⟨x.1, y.1, rfl, hnone, isBelow_of_evaluatePattern ha ht hs hlt hu hv x hx y hy⟩

include hp in
theorem sameUnless_evaluateTerm (hm : m ∈ matchingLists degrees) {term : Term}
    (hterm : term.pattern.IsNumbered degrees) :
    SameUnless E (evaluateTerm a s m term) (evaluateTerm (a.withProducts p) s m term) := by
  cases hpattern : term.pattern with
  | leaf v k =>
    simp only [evaluateTerm, hpattern]
    exact .refl _
  | product l r =>
    rw [hpattern] at hterm
    obtain ⟨hltl, hltr⟩ := Pattern.countAt_lt_target hs hm hterm
    rw [evaluateTerm_product hpattern, evaluateTerm_product hpattern]
    by_cases hc : a.field.ofInt term.coefficient = 0
    · have hc' : (a.withProducts p).field.ofInt term.coefficient = 0 := hc
      rw [if_pos hc, if_pos hc']
      exact .refl _
    · have hc' : (a.withProducts p).field.ofInt term.coefficient ≠ 0 := hc
      rw [if_neg hc, if_neg hc']
      exact (sameUnless_evaluatePattern ha ht hs hp hltl).bind fun u _ =>
        (sameUnless_evaluatePattern ha ht hs hp hltr).bind fun v _ => .refl _

theorem evaluateTerm_eq_error (hm : m ∈ matchingLists degrees) {term : Term}
    (hterm : term.pattern.IsNumbered degrees) {f : Failure}
    (h : evaluateTerm a s m term = .error f) :
    ∃ l r, f = .algebra (.unknownProduct l r) ∧ a.products.product? l r = none ∧
      a.IsBelow target l r := by
  cases hpattern : term.pattern with
  | leaf v k =>
    simp only [evaluateTerm, hpattern] at h
    cases h
  | product l r =>
    rw [hpattern] at hterm
    obtain ⟨hltl, hltr⟩ := Pattern.countAt_lt_target hs hm hterm
    have hplaces : ∀ q ∈ l.leaves ++ r.leaves, q.2 < degrees.getD q.1 0 :=
      fun q hq => (hterm.mem_iff q.1 q.2).1 hq
    rw [evaluateTerm_product hpattern] at h
    split at h
    · cases h
    · rcases bind_eq_error.1 h with h | ⟨u, -, h⟩
      · exact evaluatePattern_eq_error ha ht hs hm
          (fun x hx => hplaces x (List.mem_append_left _ hx)) hltl h
      · rcases bind_eq_error.1 h with h | ⟨v, -, h⟩
        · exact evaluatePattern_eq_error ha ht hs hm
            (fun x hx => hplaces x (List.mem_append_right _ hx)) hltr h
        · cases h

end

/-! ## Runs -/

/-- The same linearization with other known products. -/
def withProducts (z : Linearization) (p : ProductTable) : Linearization :=
  { z with algebra := z.algebra.withProducts p }

@[simp] theorem withProducts_matchings (z : Linearization) (p : ProductTable) :
    (z.withProducts p).matchings = z.matchings := rfl

/-- What the search of a target rests on. -/
structure Grounded (z : Linearization) (target : Name) : Prop where
  built : z.algebra.Built
  contains : z.algebra.table.contains target = true
  numbered : z.identity.IsNumbered
  matchings : z.matchings = Nonassoc.matchings z.identity.degrees

section
variable {z : Linearization} {target : Name} (hz : z.Grounded target) {s : Substitution}
  (hs : s ∈ reached z.algebra.table z.algebra.basis target z.identity.degrees)
include hz

include hs in
theorem Grounded.isSlotTable :
    IsSlotTable z.algebra.table z.algebra.basis target z.identity.degrees s :=
  (Search.mem_reached hz.contains hz.numbered.degrees_ne_nil hz.built.basis
    hz.numbered.degrees_pos).1 hs

theorem Grounded.mem_matchings {m : Matching} (hm : m ∈ z.matchings.toList) :
    m ∈ matchingLists z.identity.degrees := by
  rwa [hz.matchings, (yields_matchings _).toList] at hm

section
variable {E : Failure → Prop} {p : ProductTable} (hp : z.algebra.AgreesBelow target E p)
include hp

include hs in
theorem sameUnless_evaluate {m : Matching} (hm : m ∈ z.matchings.toList) :
    SameUnless E (z.evaluate s m) ((z.withProducts p).evaluate s m) := by
  refine (SameUnless.mapM fun term hterm => ?_).bind fun _ _ => .refl _
  exact sameUnless_evaluateTerm hz.built hz.contains (hz.isSlotTable hs) hp (hz.mem_matchings hm)
    (hz.numbered.numbered term hterm)

include hs in
theorem sameUnless_visitMatching {m : Matching} (hm : m ∈ z.matchings.toList) (batchSize : Nat)
    (t : Token) (sum : Sum) :
    (z.visitMatching batchSize s m t sum).SameUnless E
      ((z.withProducts p).visitMatching batchSize s m t sum) := by
  have hadd : ∀ t sum, (z.addMatching s m t sum).SameUnless E
      ((z.withProducts p).addMatching s m t sum) := by
    intro t sum hE
    have heval := sameUnless_evaluate hz hs hp hm fun e he h =>
      hE e he (by rw [addMatching, h])
    rw [addMatching, addMatching, heval]
  intro hE
  unfold visitMatching at hE ⊢
  split
  · rename_i left hleft
    rw [hleft] at hE
    exact hadd _ _ hE
  · rename_i hleft
    rw [hleft] at hE
    split
    · rename_i t' hpoll
      rw [hpoll] at hE
      exact hadd _ _ hE
    · rfl

include hs in
theorem sameUnless_visitSubstitution (batchSize : Nat) (t : Token) (q : Progress) :
    (z.visitSubstitution batchSize s t q).SameUnless E
      ((z.withProducts p).visitSubstitution batchSize s t q) := by
  intro hE
  have hrun := Walk.forEach_sameUnless (E := E)
    (fun m hm => sameUnless_visitMatching hz hs hp hm batchSize) t ⟨#[], 0⟩ fun e he h =>
      hE e he (by simp only [visitSubstitution, equation, h])
  have hequation : (z.withProducts p).equation batchSize s t = z.equation batchSize s t := by
    simp only [equation, withProducts_matchings, hrun]
  unfold visitSubstitution
  rw [hequation]
  rfl

theorem sameUnless_visitSplit {split : List Name}
    (hsplit : split ∈ (splits z.algebra.table target z.identity.degrees).toList) (batchSize : Nat)
    (t : Token) (q : Progress) :
    (z.visitSplit batchSize split t q).SameUnless E
      ((z.withProducts p).visitSplit batchSize split t q) := by
  intro hE
  have hrun : (partitions (z.withProducts p).algebra.table split
      (z.withProducts p).identity.degrees).forEach
        ((z.withProducts p).visitPartition batchSize) t q.countSplit =
      (partitions z.algebra.table split z.identity.degrees).forEach
        (z.visitPartition batchSize) t q.countSplit := by
    refine Walk.forEach_sameUnless (E := E) (fun partition hpartition t q => ?_) t q.countSplit
      fun e he h => hE e he ((result_visitSplit ..).trans h)
    refine Walk.forEach_sameUnless (fun s hs => ?_) t q.countPartition
    exact sameUnless_visitSubstitution hz (List.mem_flatMap.2 ⟨split, hsplit,
      List.mem_flatMap.2 ⟨partition, hpartition, hs⟩⟩) hp batchSize
  rw [visitSplit, hrun, visitSplit]

theorem sameUnless_visitTarget (batchSize : Nat) (t : Token) :
    (z.visitTarget batchSize target t).SameUnless E
      ((z.withProducts p).visitTarget batchSize target t) :=
  Walk.forEach_sameUnless (fun _ hsplit => sameUnless_visitSplit hz hp hsplit batchSize) t _

end

/-- All that an evaluation may lack is a product below the target. -/
theorem evaluate_eq_error (hs : s ∈ reached z.algebra.table z.algebra.basis target z.identity.degrees)
    {m : Matching} (hm : m ∈ z.matchings.toList) {f : Failure} (h : z.evaluate s m = .error f) :
    ∃ l r, f = .algebra (.unknownProduct l r) ∧ z.algebra.products.product? l r = none ∧
      z.algebra.IsBelow target l r := by
  rcases bind_eq_error.1 h with h | ⟨pairs, -, h⟩
  · obtain ⟨term, hterm, h⟩ := exists_of_mapM_eq_error h
    exact evaluateTerm_eq_error hz.built hz.contains (hz.isSlotTable hs) (hz.mem_matchings hm)
      (hz.numbered.numbered term hterm) h
  · cases h

/-- Unless the token ends it, a run fails only for want of a product below the target. -/
theorem visitTarget_failsOnly (batchSize : Nat) (t : Token) :
    (z.visitTarget batchSize target t).FailsOnly (fun f => ∃ l r,
      f = .algebra (.unknownProduct l r) ∧ z.algebra.products.product? l r = none ∧
        z.algebra.IsBelow target l r) t := by
  have hw : z.matchings.failure? = none := hz.matchings ▸ (yields_matchings _).failure?
  exact visitTarget_failsOnly_of_evaluate hz.contains hw
    (fun s hs m hm f => evaluate_eq_error hz hs hm) batchSize t

end

end Linearization

/-! ## Outcomes -/

section
variable {a : PartialAlgebra} (ha : a.Built) {e : Identity} (he : e.IsNumbered) {target : Name}
  {config : Config} {t : Token}
include ha he

theorem grounded_of_ofIdentity (ht : a.table.contains target = true) {z : Linearization}
    (hz : Linearization.ofIdentity e a = .ok z) : z.Grounded target := by
  obtain ⟨rfl, rfl, hm⟩ := Linearization.ofIdentity_eq_ok hz
  exact ⟨ha, ht, he, hm⟩

/-- Where two tables agree, a run has the same outcome, unless the first one fails with an error in
`E`. -/
theorem generate_withProducts {E : Failure → Prop} (hE : ¬ E .cancelled) {p : ProductTable}
    (hp : a.AgreesBelow target E p)
    (h : ∀ f, E f → (generate e target a config t).1.status ≠ .failed f) :
    generate e target (a.withProducts p) config t = generate e target a config t := by
  by_cases ht : a.table.contains target = true
  · cases hcount : matchingCount e.degrees with
    | error f =>
      simp only [generate, Linearization.ofIdentity, hcount]
      rfl
    | ok n =>
      let z : Linearization := ⟨e, a, matchings e.degrees, n⟩
      have hz : Linearization.ofIdentity e a = .ok z := by
        rw [Linearization.ofIdentity, hcount]
        rfl
      have hz' : Linearization.ofIdentity e (a.withProducts p) = .ok (z.withProducts p) := by
        rw [Linearization.ofIdentity, hcount]
        rfl
      rw [generate_eq_search ht hz] at h
      rw [generate_eq_search ht hz, generate_eq_search (a := a.withProducts p) ht hz']
      have hrun := Linearization.sameUnless_visitTarget (grounded_of_ofIdentity ha he ht hz) hp
        config.batchSize t fun f hf herror => h f hf (by
          rw [herror]
          exact Outcome.status_ofResult_error (fun hc => hE (hc ▸ hf)) _ _)
      rw [hrun]
  · simp only [generate, PartialAlgebra.withProducts_table, ht]
    rfl

/-- A run on a known target fails because its identity cannot be linearized, or for want of a product
below the target. It is cancelled only by its token, and not by one that grants every poll. -/
theorem generate_failsOnly (ht : a.table.contains target = true) :
    (t = .unlimited → (generate e target a config t).2 = .unlimited) ∧
      ((generate e target a config t).1.status = .cancelled →
        (generate e target a config t).2.cancelled = true) ∧
      ∀ f, (generate e target a config t).1.status = .failed f →
        Linearization.ofIdentity e a = .error f ∨
          ∃ l r, f = .algebra (.unknownProduct l r) ∧ a.products.product? l r = none ∧
            a.IsBelow target l r := by
  cases hz : Linearization.ofIdentity e a with
  | error failure =>
    obtain rfl := Linearization.ofIdentity_eq_error hz
    simp only [generate, ht, hz]
    exact ⟨id, fun hc => (by cases hc), fun f hf => .inl (by cases hf; rfl)⟩
  | ok z =>
    have hrun := Linearization.visitTarget_failsOnly (grounded_of_ofIdentity ha he ht hz)
      config.batchSize t
    obtain ⟨-, rfl, -⟩ := Linearization.ofIdentity_eq_ok hz
    rw [generate_eq_search ht hz]
    refine ⟨hrun.token, fun hc => ?_, fun f hf => .inr ?_⟩
    · rcases hrun.error _ (Outcome.cancelled_ofResult.1 hc) with ⟨l, r, hf, -⟩ | ⟨-, htoken⟩
      · cases hf
      · exact htoken
    · have hf' := Outcome.eq_error_of_status_ofResult hf
      refine (hrun.error f hf').resolve_right fun hc => ?_
      rw [hc.1] at hf' hf
      rw [hf'] at hf
      cases hf

/-- A run that comes to a matching that cannot be evaluated fails in the algebra, if its token grants
every poll. -/
theorem exists_failed_of_evaluate (ht : a.table.contains target = true) {z : Linearization}
    (hz : Linearization.ofIdentity e a = .ok z) {s : Substitution}
    (hs : s ∈ Search.reached a.table a.basis target e.degrees) {m : Matching}
    (hm : m ∈ z.matchings.toList) {f : Failure} (hf : z.evaluate s m = .error f) :
    ∃ f, (generate e target a config .unlimited).1.status = .failed (.algebra f) := by
  -- a run that came to its end would have found the pairs of the matching
  have hend : ¬ (generate e target a config .unlimited).1.status.IsFinished := fun hend => by
    obtain ⟨ps, hps⟩ := exists_evaluate_of_finished hend hz hs hm
    cases hf.symm.trans hps
  have htoken : (generate e target a config .unlimited).2 = .unlimited :=
    (generate_failsOnly ha he ht).1 rfl
  cases hstatus : (generate e target a config .unlimited).1.status with
  | complete => exact absurd (.inl hstatus) hend
  | empty => exact absurd (.inr hstatus) hend
  | cancelled =>
    have hcancelled := (generate_failsOnly ha he ht).2.1 hstatus
    rw [htoken] at hcancelled
    cases hcancelled
  | failed failure =>
    rcases (generate_failsOnly ha he ht).2.2 failure hstatus with h | ⟨l, r, rfl, -⟩
    · cases hz.symm.trans h
    · exact ⟨.unknownProduct l r, rfl⟩

end

/-- A run does not depend on products of the target's multidegree: its outcome is the same with any
table that has the same products below the target. If it does not fail, its outcome is the same with
any table that has more products. If it fails in the algebra, it lacks a product of a multidegree
below the target, of smaller degree. -/
theorem generate_lookups {a : PartialAlgebra} (ha : a.Built) {words : Combination} {e : Identity}
    (he : Identity.ofWords words = .ok e) (target : Name) (config : Config) (t : Token) :
    (∀ p : ProductTable,
      (∀ l r, a.IsBelow target l r → p.product? l r = a.products.product? l r) →
        generate e target (a.withProducts p) config t = generate e target a config t) ∧
    (∀ p : ProductTable,
      (∀ l r x, a.products.product? l r = some x → p.product? l r = some x) →
      (∀ f, (generate e target a config t).1.status ≠ .failed f) →
        generate e target (a.withProducts p) config t = generate e target a config t) ∧
    (a.table.contains target = true →
      ∀ f, (generate e target a config t).1.status = .failed (.algebra f) →
        ∃ l r, f = .unknownProduct l r ∧ a.products.product? l r = none ∧
          ∃ m n k d d', a.basis.nameOf l = .ok m ∧ a.basis.nameOf r = .ok n ∧
            a.table.add m n = .ok (some k) ∧ a.table.le k target = .ok true ∧
            a.table.degree k = .ok d ∧ a.table.degree target = .ok d' ∧ d < d') := by
  have hnumbered := Identity.isNumbered_of_ofWords he
  refine ⟨fun p hp => ?_, fun p hp hrun => ?_, fun ht f hf => ?_⟩
  · exact generate_withProducts ha hnumbered (E := fun _ => False) id
      (fun l r hlr => .inl (hp l r hlr)) nofun
  · refine generate_withProducts ha hnumbered (E := fun f => f ≠ .cancelled) (fun h => h rfl)
      (fun l r _ => ?_) fun f _ => hrun f
    cases hproduct : a.products.product? l r with
    | none => exact .inr ⟨rfl, nofun⟩
    | some x => exact .inl (hp l r x hproduct)
  · obtain ⟨l, r, hlr, hnone, hbelow⟩ :=
      ((generate_failsOnly ha hnumbered ht).2.2 _ hf).resolve_left fun h =>
        nomatch Linearization.ofIdentity_eq_error h
    cases hlr
    obtain ⟨m, n, k, hm, hn, hadd, hle, hk, hlt⟩ := hbelow.exists_degreeOf_lt ha.basis ht
    exact ⟨l, r, rfl, hnone, m, n, k, _, _, hm, hn, hadd, hle, Table.degree_eq hk,
      Table.degree_eq ht, hlt⟩

/-- One generator whose square is not known: its square can be demanded to be zero with any product
there, but its cube cannot be asked for. -/
theorem generate_lookups_square :
    ∃ (a : PartialAlgebra) (p : ProductTable) (square cube : Identity),
      a.Built ∧ a.products.product? 0 0 = none ∧ p.product? 0 0 = some Element.zero ∧
      Identity.ofWords [(1, .product (.letter 'x') (.letter 'x'))] = .ok square ∧
      Identity.ofWords [(1, .product (.product (.letter 'x') (.letter 'x')) (.letter 'x'))] =
        .ok cube ∧
      (∀ l r, a.IsBelow 2 l r → p.product? l r = a.products.product? l r) ∧
      (∀ l r x, a.products.product? l r = some x → p.product? l r = some x) ∧
      (∀ f, (generate square 2 a .standard .unlimited).1.status ≠ .failed f) ∧
      generate square 2 (a.withProducts p) .standard .unlimited =
        generate square 2 a .standard .unlimited ∧
      ∃ f, (generate cube 3 a .standard .unlimited).1.status = .failed (.algebra f) ∧
        ∃ l r, f = .unknownProduct l r ∧ a.products.product? l r = none := by
  obtain ⟨t, b, ht, hb, hc2, hc3, h1, h2, h3, hname, hstrange⟩ : ∃ t b,
      Table.ofTarget ⟨[3]⟩ = .ok t ∧ (Basis.empty t).push none 1 = .ok b ∧
      t.contains 2 = true ∧ t.contains 3 = true ∧ t.entry 1 = .ok ⟨[1]⟩ ∧ t.entry 2 = .ok ⟨[2]⟩ ∧
      t.entry 3 = .ok ⟨[3]⟩ ∧ b.nameOf 0 = .ok 1 ∧ ∀ x, b.nameOf (x + 1) = .error .index :=
    ⟨_, _, rfl, rfl, by decide, by decide, rfl, rfl, rfl, rfl, fun _ => rfl⟩
  let a : PartialAlgebra := ⟨.standard, t, b, .empty⟩
  let p : ProductTable := ⟨ProductTable.empty.products.insert (0, 0) Element.zero⟩
  let square : Identity := ⟨['x'], [2], [⟨1, .product (.leaf 0 0) (.leaf 0 1)⟩]⟩
  let cube : Identity := ⟨['x'], [3], [⟨1, .product (.product (.leaf 0 0) (.leaf 0 1)) (.leaf 0 2)⟩]⟩
  have ha : a.Built := .push (.empty .standard t) hb
  have hsquare : Identity.ofWords [(1, .product (.letter 'x') (.letter 'x'))] = .ok square := rfl
  have hcube : Identity.ofWords
      [(1, .product (.product (.letter 'x') (.letter 'x')) (.letter 'x'))] = .ok cube := rfl
  have hnone : ∀ l r, a.products.product? l r = none := by
    simp [a, ProductTable.product?, ProductTable.empty]
  have hc1 : t.contains 1 = true := Table.contains_iff.2 ⟨_, h1⟩
  have hcount2 : t.count 1 + t.count 1 = t.count 2 := by
    rw [Table.count_of_entry h1, Table.count_of_entry h2]
    funext g
    cases g <;> rfl
  have hcount3 : 3 • t.count 1 = t.count 3 := by
    rw [Table.count_of_entry h1, Table.count_of_entry h3]
    funext g
    cases g <;> rfl
  have hbelow : ∀ l r, ¬ a.IsBelow 2 l r := by
    rintro (_ | l) (_ | r) ⟨m, n, k, hm, hn, hadd, -, hne⟩
    · cases hname.symm.trans hm
      cases hname.symm.trans hn
      obtain ⟨hk, hcount⟩ := (Table.add_eq_some_iff hc1 hc1).1 hadd
      exact hne (Table.eq_of_count hk hc2 (hcount.symm.trans hcount2))
    · cases (hstrange r).symm.trans hn
    · cases (hstrange l).symm.trans hm
    · cases (hstrange l).symm.trans hm
  have hp : ∀ l r, a.IsBelow 2 l r → p.product? l r = a.products.product? l r :=
    fun l r h => absurd h (hbelow l r)
  have hextends : ∀ l r x, a.products.product? l r = some x → p.product? l r = some x :=
    fun l r x h => by cases (hnone l r).symm.trans h
  have hrun : ∀ f, (generate square 2 a .standard .unlimited).1.status ≠ .failed f := by
    intro f hf
    rcases (generate_failsOnly ha (Identity.isNumbered_of_ofWords hsquare) hc2).2.2 f hf with
      h | ⟨l, r, -, -, hlr⟩
    · cases h
    · exact hbelow l r hlr
  obtain ⟨hsame, -, -⟩ := generate_lookups ha hsquare 2 .standard .unlimited
  obtain ⟨-, -, hfails⟩ := generate_lookups ha hcube 3 .standard .unlimited
  have hfailed : ∃ f, (generate cube 3 a .standard .unlimited).1.status = .failed (.algebra f) := by
    let z : Linearization := ⟨cube, a, matchings [3], 6⟩
    have hz : Linearization.ofIdentity cube a = .ok z := rfl
    have htable : IsSlotTable t b 3 [3] [[0, 0, 0]] := by
      refine Search.isSlotTable_replicate hname ?_ hcount3
      rw [Table.degreeOf_of_entry h1]
      decide
    have hreached := (Search.mem_reached hc3 (List.cons_ne_nil 3 []) ha.basis (by decide)).2 htable
    have hidentity : [[0, 1, 2]] ∈ z.matchings.toList := by
      rw [(yields_matchings [3]).toList]
      decide
    have hmultiply : a.multiply (Element.basis 0) (Element.basis 0) =
        .error (.unknownProduct 0 0) := by
      simp only [PartialAlgebra.multiply, Element.basis, List.foldlM_cons,
        PartialAlgebra.addProduct, hnone]
      rfl
    have hpattern : Linearization.evaluatePattern a [[0, 0, 0]] [[0, 1, 2]]
        (.product (.leaf 0 0) (.leaf 0 1)) = .error (.algebra (.unknownProduct 0 0)) :=
      congrArg (Except.mapError Failure.algebra) hmultiply
    have hc : PrimeField.standard.ofInt 1 ≠ 0 := by decide
    have hterm : Linearization.evaluateTerm a [[0, 0, 0]] [[0, 1, 2]]
        ⟨1, .product (.product (.leaf 0 0) (.leaf 0 1)) (.leaf 0 2)⟩ =
          .error (.algebra (.unknownProduct 0 0)) := by
      rw [Linearization.evaluateTerm_product rfl, if_neg hc, hpattern]
      rfl
    have hevaluate : z.evaluate [[0, 0, 0]] [[0, 1, 2]] =
        .error (.algebra (.unknownProduct 0 0)) := by
      simp only [Linearization.evaluate, z, cube, List.mapM_cons, hterm]
      rfl
    exact exists_failed_of_evaluate ha (Identity.isNumbered_of_ofWords hcube) hc3 hz hreached
      hidentity hevaluate
  obtain ⟨f, hf⟩ := hfailed
  obtain ⟨l, r, rfl, hlr, -⟩ := hfails hc3 f hf
  refine ⟨a, p, square, cube, ha, hnone 0 0, ?_, hsquare, hcube, hp, hextends, hrun, hsame p hp,
    _, hf, l, r, rfl, hlr⟩
  simp [p, ProductTable.product?]

end Nonassoc
