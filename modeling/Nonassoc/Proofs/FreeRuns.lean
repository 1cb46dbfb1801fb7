import Mathlib.Data.List.SplitLengths
import Nonassoc.Proofs.Counts
import Nonassoc.Proofs.FreeAlgebra
import Nonassoc.Proofs.Lookups

/-!
# Runs over the truncated free algebra

Where all products of degree below the target's are basis elements, every factor of a term has a
basis element as its value (`exists_evaluatePattern`), so an evaluation gives one pair for each term
that does not vanish in the field (`exists_evaluate`). The target has a slot table exactly if the
identity has at most its degree (`reached_eq_nil_iff`). So a run for an identity over the free
algebra, truncated one degree below the target's or higher, does not fail, and its size is known
(`generate_free`).
-/

namespace Nonassoc

open Multidegree (Name Table)
open Search (Partition Substitution IsAssignment IsSlotTable splits partitions substitutions reached)

/-! ## When there are slot tables -/

namespace Search

variable {t : Table} {b : Basis} {target : Name} {degrees : List Nat}

/-- A name can be divided into any number of names up to its degree, all but one of degree one. -/
theorem exists_names {k : Name} (hk : t.contains k = true) {n : Nat} (hn : n + 1 ≤ t.degreeOf k) :
    ∃ names : List Name, names.length = n + 1 ∧ (names.map t.count).sum = t.count k ∧
      ∀ m ∈ names, t.contains m = true ∧ 0 < t.degreeOf m ∧ t.degreeOf m + n ≤ t.degreeOf k := by
  induction n generalizing k with
  | zero =>
    refine ⟨[k], rfl, by simp, fun m hm => ?_⟩
    obtain rfl := List.mem_singleton.1 hm
    exact ⟨hk, hn, le_rfl⟩
  | succ n ih =>
    have hpos : 0 < t.degreeOf k := by omega
    obtain ⟨m, rest, hm, hrest, hone, hsum⟩ := Table.exists_add_of_degreeOf_pos hpos
    have hdegrees := Table.degreeOf_add hsum
    obtain ⟨names, hlength, hnames, hall⟩ := ih hrest (by omega)
    refine ⟨m :: names, by simp [hlength], by simp [hnames, hsum], ?_⟩
    refine List.forall_mem_cons.2 ⟨⟨hm, by omega, by omega⟩, fun m' hm' => ?_⟩
    obtain ⟨hcontains, hpos, hle⟩ := hall m' hm'
    exact ⟨hcontains, hpos, by omega⟩

/-- There is an assignment if there are at most as many slots as the target's degree, and elements of
all degrees that a slot may then have. -/
theorem exists_isAssignment (ht : t.contains target = true) (hpos : 0 < degrees.sum)
    (hle : degrees.sum ≤ t.degreeOf target)
    (helements : ∀ n, t.contains n = true → 0 < t.degreeOf n →
      t.degreeOf n + degrees.sum ≤ t.degreeOf target + 1 → ∃ x, b.nameOf x = .ok n) :
    ∃ s, IsAssignment t b target degrees s := by
  obtain ⟨n, hn⟩ : ∃ n, degrees.sum = n + 1 := ⟨degrees.sum - 1, by omega⟩
  obtain ⟨names, hlength, hsum, hnames⟩ := exists_names ht (hn ▸ hle)
  have hexists : ∀ m ∈ names, ∃ x, b.nameOf x = .ok m := fun m hm => by
    obtain ⟨hcontains, hpos, hle⟩ := hnames m hm
    exact helements m hcontains hpos (by omega)
  choose! element helement using hexists
  have hcells : ∀ x ∈ names.map element, b.contains x = true ∧ 0 < t.degreeOf (b.nameAt x) := by
    intro x hx
    obtain ⟨m, hm, rfl⟩ := List.mem_map.1 hx
    obtain ⟨hcontains, hname⟩ := Basis.nameOf_eq_ok_iff_nameAt.1 (helement m hm)
    exact ⟨hcontains, hname ▸ (hnames m hm).2.1⟩
  have hflatten : (degrees.splitLengths (names.map element)).flatten = names.map element :=
    List.flatten_splitLengths _ _ (by rw [List.length_map, hlength, hn])
  refine ⟨degrees.splitLengths (names.map element), ?_, fun row hrow x hx => ?_, ?_⟩
  · exact List.map_splitLengths_length _ _ (by rw [List.length_map, hlength, hn])
  · exact hcells x (hflatten ▸ List.mem_flatten.2 ⟨row, hrow, hx⟩)
  · rw [← hsum]
    calc ((degrees.splitLengths (names.map element)).map fun row =>
          (row.map fun x => t.count (b.nameAt x)).sum).sum
        = (((degrees.splitLengths (names.map element)).flatten).map fun x =>
            t.count (b.nameAt x)).sum := by
          rw [List.map_flatten, List.sum_flatten, List.map_map]
          rfl
      _ = (names.map t.count).sum := by
          rw [hflatten, List.map_map]
          refine congrArg List.sum (List.map_congr_left fun m hm => ?_)
          rw [Function.comp_apply, ← (Basis.nameOf_eq_ok_iff_nameAt.1 (helement m hm)).2]

/-- A slot table is reached exactly if there are at most as many slots as the target's degree, given
elements of all degrees that a slot may have. -/
theorem reached_eq_nil_iff (ht : t.contains target = true) (hb : b.Built t) (hd : degrees ≠ [])
    (hpos : ∀ d ∈ degrees, 1 ≤ d)
    (helements : ∀ n, t.contains n = true → 0 < t.degreeOf n →
      t.degreeOf n + degrees.sum ≤ t.degreeOf target + 1 → ∃ x, b.nameOf x = .ok n) :
    reached t b target degrees = [] ↔ t.degreeOf target < degrees.sum := by
  rw [← Nat.not_le, ← not_iff_not, not_not]
  constructor
  · intro hne
    obtain ⟨s, hs⟩ := List.exists_mem_of_ne_nil _ hne
    obtain ⟨split, hsplit, -⟩ := List.mem_flatMap.1 hs
    exact sum_le_of_mem_splits ht hsplit
  · intro hle
    have hsum : 0 < degrees.sum := by
      obtain ⟨d, hd⟩ := List.exists_mem_of_ne_nil _ hd
      exact (hpos d hd).trans (List.single_le_sum (fun _ _ => Nat.zero_le _) d hd)
    obtain ⟨s, hs⟩ := exists_isAssignment ht hsum hle helements
    obtain ⟨s', hs', -⟩ := hs.exists_perm
    exact List.ne_nil_of_mem ((mem_reached ht hd hb hpos).2 hs')

end Search

/-! ## Evaluation -/

/-- The terms of an identity that do not vanish in a field. -/
def Identity.termsOver (f : PrimeField) (e : Identity) : List Term :=
  e.terms.filter fun t => ¬ (f.prime : Int) ∣ t.coefficient

/-- The coefficients of these terms in the field. -/
def Identity.coefficientsOver (f : PrimeField) (e : Identity) : List Scalar :=
  (e.termsOver f).map fun t => f.ofInt t.coefficient

/-- The product of two basis elements that is a basis element. -/
theorem PartialAlgebra.multiply_basis {a : PartialAlgebra} {l r x : BasisId}
    (h : a.products.product? l r = some (Element.basis x)) :
    a.multiply (Element.basis l) (Element.basis r) = .ok (Element.basis x) := by
  have hone : a.field.mul 1 1 = 1 := PrimeField.mul_one PrimeField.isUnit_one.2
  have hadd : a.field.add 0 1 = 1 := by
    rw [PrimeField.add, Nat.zero_add, Nat.mod_eq_of_lt PrimeField.isUnit_one.2]
  have hsum : Element.zero.addAt a.field x 1 = Element.basis x := by
    rw [Element.addAt, Element.zero, Element.get, List.lookup_nil, Option.getD_none, hadd]
    rfl
  simp only [multiply, Element.basis, List.foldlM_cons, List.foldlM_nil, addProduct, h,
    List.foldl_cons, List.foldl_nil, hone, hsum, bind_pure]

section
variable {a : PartialAlgebra} {d : Nat} (ha : a.IsFreeTo d) {target : Name}
  (ht : a.table.contains target = true) (hd : a.table.degreeOf target ≤ d + 1)
include ha ht hd

/-- A product below the target is known. -/
theorem PartialAlgebra.IsFreeTo.product?_of_isBelow {l r : BasisId} (h : a.IsBelow target l r) :
    ∃ x, a.products.product? l r = some (Element.basis x) := by
  obtain ⟨m, n, k, hm, hn, hadd, -, -, hlt⟩ := h.exists_degreeOf_lt ha.built.basis ht
  exact ha.products l r m n k hm hn hadd (by omega)

namespace Linearization

section
variable {degrees : List Nat} {s : Substitution}
  (hs : IsSlotTable a.table a.basis target degrees s) {m : Matching} (hm : m ∈ matchingLists degrees)
include hs hm

/-- The value of a part below the target is a basis element. -/
theorem exists_evaluatePattern {q : Pattern} (hq : ∀ x ∈ q.leaves, x.2 < degrees.getD x.1 0)
    (hlt : q.countAt a s m < a.table.count target) :
    ∃ x, evaluatePattern a s m q = .ok (Element.basis x) := by
  induction q with
  | leaf v k =>
    obtain ⟨j, hj, hslot⟩ := exists_slot_of_mem hm (hq (v, k) (List.mem_singleton_self _))
    obtain ⟨b, hb⟩ := Search.exists_slot hs.lengths hj
    exact ⟨b, evaluatePattern_leaf hslot hb⟩
  | product l r hl hr =>
    obtain ⟨hltl, hltr⟩ := Pattern.countAt_lt_of_product hlt
    obtain ⟨x, hx⟩ := hl (fun q hq' => hq q (List.mem_append_left _ hq')) hltl
    obtain ⟨y, hy⟩ := hr (fun q hq' => hq q (List.mem_append_right _ hq')) hltr
    have hbelow := isBelow_of_evaluatePattern ha.built ht hs hlt hx hy (x, 1)
      (List.mem_singleton_self _) (y, 1) (List.mem_singleton_self _)
    obtain ⟨w, hw⟩ := ha.product?_of_isBelow ht hd hbelow
    refine ⟨w, ?_⟩
    rw [evaluatePattern, hx, hy]
    simp only [bind, Except.bind, PartialAlgebra.multiply_basis hw]
    rfl

/-- A term gives one pair, with its coefficient, unless it vanishes in the field. -/
theorem exists_evaluateTerm_of_free {term : Term} (hterm : term.pattern.IsNumbered degrees)
    (hproduct : ∃ l r, term.pattern = .product l r) :
    ∃ pairs, evaluateTerm a s m term = .ok pairs ∧ pairs.map Pair.coefficient =
      if (a.field.prime : Int) ∣ term.coefficient then [] else [a.field.ofInt term.coefficient] := by
  obtain ⟨l, r, hpattern⟩ := hproduct
  rw [hpattern] at hterm
  rw [evaluateTerm_product hpattern]
  simp only [← PrimeField.ofInt_eq_zero_iff]
  split
  · exact ⟨[], rfl, rfl⟩
  · obtain ⟨hltl, hltr⟩ := Pattern.countAt_lt_target hs hm hterm
    have hplaces : ∀ q ∈ l.leaves ++ r.leaves, q.2 < degrees.getD q.1 0 :=
      fun q hq => (hterm.mem_iff q.1 q.2).1 hq
    obtain ⟨x, hx⟩ := exists_evaluatePattern ha ht hd hs hm
      (fun q hq => hplaces q (List.mem_append_left _ hq)) hltl
    obtain ⟨y, hy⟩ := exists_evaluatePattern ha ht hd hs hm
      (fun q hq => hplaces q (List.mem_append_right _ hq)) hltr
    rw [hx, hy]
    refine ⟨_, rfl, ?_⟩
    simp only [pairsOf, Element.basis, List.flatMap_cons, List.flatMap_nil, List.map_cons,
      List.map_nil, List.append_nil, PrimeField.mul_one PrimeField.isUnit_one.2,
      PrimeField.mul_one (PrimeField.ofInt_lt _)]

end

section
variable {z : Linearization} (hz : z.algebra = a) (he : z.identity.IsNumbered)
  (hw : z.matchings = Nonassoc.matchings z.identity.degrees) {s : Substitution}
  (hs : IsSlotTable a.table a.basis target z.identity.degrees s)
include hz he hs

/-- An evaluation gives one pair for each term that does not vanish. -/
theorem exists_evaluate {m : Matching} (hm : m ∈ matchingLists z.identity.degrees) :
    ∃ pairs, z.evaluate s m = .ok pairs ∧
      pairs.map Pair.coefficient = z.identity.coefficientsOver a.field := by
  subst hz
  have hterm := fun term (hterm : term ∈ z.identity.terms) =>
    exists_evaluateTerm_of_free ha ht hd hs hm (he.numbered term hterm) (he.products term hterm)
  choose! pairs hpairs hcoefficient using hterm
  refine ⟨_, bind_eq_ok.2 ⟨_, mapM_eq_ok_map hpairs, rfl⟩, ?_⟩
  rw [List.map_flatten, List.map_map,
    List.map_congr_left (f := List.map Pair.coefficient ∘ pairs) hcoefficient,
    Identity.coefficientsOver, Identity.termsOver]
  induction z.identity.terms with
  | nil => rfl
  | cons term terms ih =>
    by_cases hdvd : (z.algebra.field.prime : Int) ∣ term.coefficient <;> simp [hdvd, ih]

include hw in
/-- The pairs at a slot table: those of each matching have the coefficients of the terms. -/
theorem exists_pairsAt : ∃ pairs, z.PairsAt s pairs ∧ pairs.map Pair.coefficient =
    (List.replicate (z.identity.degrees.map Nat.factorial).prod
      (z.identity.coefficientsOver a.field)).flatten := by
  have hmatchings : z.matchings.toList = matchingLists z.identity.degrees :=
    hw ▸ (yields_matchings _).toList
  have hmatching := fun m (hm : m ∈ matchingLists z.identity.degrees) =>
    exists_evaluate ha ht hd hz he hs hm
  choose! pairs hpairs hcoefficient using hmatching
  refine ⟨((matchingLists z.identity.degrees).map pairs).flatten, ⟨_, ?_, rfl⟩, ?_⟩
  · rw [hmatchings]
    exact List.forall₂_map_right_iff.2 (List.forall₂_same.2 hpairs)
  · rw [List.map_flatten, List.map_map,
      List.map_congr_left (f := List.map Pair.coefficient ∘ pairs) hcoefficient, List.map_const',
      length_matchingLists]

end

end Linearization

end

/-! ## Outcomes -/

/-- What a run finds for an identity at a target of degree `d`, if every product of smaller degree is
a basis element. There are equations if the identity fits the target and does not vanish in the
field: one for every substitution, with a pair for every matching and every term that does not
vanish, which has the coefficient of the term. -/
structure Outcome.IsFree (f : PrimeField) (e : Identity) (d : Nat) (o : Outcome) : Prop where
  status : o.status =
    if e.degree ≤ d ∧ ∃ t ∈ e.terms, ¬ (f.prime : Int) ∣ t.coefficient then .complete else .empty
  length : o.status = .complete → o.equations.length = o.stats.substitutions
  size : ∀ q ∈ o.equations,
    q.size = (e.degrees.map Nat.factorial).prod * (e.termsOver f).length
  coefficients : ∀ q ∈ o.equations, q.pairs.map Pair.coefficient =
    (List.replicate (e.degrees.map Nat.factorial).prod (e.coefficientsOver f)).flatten

theorem Identity.coefficientsOver_ne_nil_iff {f : PrimeField} {e : Identity} :
    e.coefficientsOver f ≠ [] ↔ ∃ t ∈ e.terms, ¬ (f.prime : Int) ∣ t.coefficient := by
  simp [coefficientsOver, termsOver, List.filter_eq_nil_iff]

theorem Pattern.length_leaves_pos (p : Pattern) : 0 < p.leaves.length := by
  induction p with
  | leaf v k => exact Nat.one_pos
  | product l r hl _ =>
    rw [leaves, List.length_append]
    exact Nat.add_pos_left hl _

/-- A numbered identity that has a term has at least degree two. -/
theorem Identity.IsNumbered.two_le_degree {e : Identity} (he : e.IsNumbered) {term : Term}
    (hterm : term ∈ e.terms) : 2 ≤ e.degree := by
  obtain ⟨l, r, hpattern⟩ := he.products term hterm
  have hlength := length_leaves (he.numbered term hterm)
  rw [hpattern, Pattern.leaves, List.length_append] at hlength
  have hl := l.length_leaves_pos
  have hr := r.length_leaves_pos
  rw [degree, total_eq_sum]
  omega

section
variable {a : PartialAlgebra} {d : Nat} (ha : a.IsFreeTo d) {target : Name}
  (ht : a.table.contains target = true) (hd : a.table.degreeOf target ≤ d + 1)
  {z : Linearization} (hz : z.algebra = a) (he : z.identity.IsNumbered)
  (hw : z.matchings = Nonassoc.matchings z.identity.degrees)
include ha ht hd hz he hw

/-- The equations at all substitutions, if the identity does not vanish in the field. -/
theorem exists_equations_of_free : ∃ pairs : Substitution → List Pair,
    ((reached a.table a.basis target z.identity.degrees).flatMap fun s => (z.equationAt s).toList) =
        (if z.identity.coefficientsOver a.field = [] then []
        else (reached a.table a.basis target z.identity.degrees).map fun s => ⟨pairs s⟩) ∧
      ∀ s ∈ reached a.table a.basis target z.identity.degrees, (pairs s).map Pair.coefficient =
        (List.replicate (z.identity.degrees.map Nat.factorial).prod
          (z.identity.coefficientsOver a.field)).flatten := by
  have hreached := fun s (hs : s ∈ reached a.table a.basis target z.identity.degrees) =>
    Linearization.exists_pairsAt ha ht hd hz he hw
      ((Search.mem_reached ht he.degrees_ne_nil ha.built.basis he.degrees_pos).1 hs)
  choose! pairs hpairs hcoefficients using hreached
  refine ⟨pairs, ?_, hcoefficients⟩
  have hnil : ∀ s ∈ reached a.table a.basis target z.identity.degrees,
      pairs s = [] ↔ z.identity.coefficientsOver a.field = [] := by
    intro s hs
    rw [← List.map_eq_nil_iff (f := Pair.coefficient), hcoefficients s hs, List.flatten_eq_nil_iff]
    simp [(prod_factorial_pos z.identity.degrees).ne']
  split
  · rename_i hvanishes
    refine List.flatMap_eq_nil_iff.2 fun s hs => ?_
    rw [(hpairs s hs).equationAt, (hnil s hs).2 hvanishes]
    rfl
  · rename_i hvanishes
    rw [List.map_eq_flatMap]
    refine List.flatMap_congr fun s hs => ?_
    rw [(hpairs s hs).equationAt, if_neg fun h => hvanishes ((hnil s hs).1 (List.isEmpty_iff.1 h))]
    rfl

/-- There is an equation exactly if the identity fits the target and does not vanish. -/
theorem equations_eq_nil_iff_of_free :
    ((reached a.table a.basis target z.identity.degrees).flatMap fun s =>
        (z.equationAt s).toList) = [] ↔
      ¬ (z.identity.degree ≤ a.table.degreeOf target ∧
        ∃ term ∈ z.identity.terms, ¬ (a.field.prime : Int) ∣ term.coefficient) := by
  obtain ⟨pairs, hequations, -⟩ := exists_equations_of_free ha ht hd hz he hw
  rw [hequations, ← Identity.coefficientsOver_ne_nil_iff]
  by_cases hvanishes : z.identity.coefficientsOver a.field = []
  · simp [hvanishes]
  · obtain ⟨term, hterm, -⟩ := Identity.coefficientsOver_ne_nil_iff.1 hvanishes
    have hdegree := he.two_le_degree hterm
    rw [Identity.degree, total_eq_sum] at hdegree ⊢
    -- all but one of the parts can have degree one, and there are at least two
    have hreached := Search.reached_eq_nil_iff ht ha.built.basis he.degrees_ne_nil he.degrees_pos
      fun n hn hpos hle => ha.elements n hn hpos (by omega)
    rw [if_neg hvanishes, List.map_eq_nil_iff, hreached, and_iff_left hvanishes, Nat.not_le]

/-- A search that comes to its end has the outcome of a free algebra. -/
theorem isFree_ofResult (batchSize : Nat) (t : Token)
    (h : (z.visitTarget batchSize target t).result = .ok ()) :
    (Outcome.ofResult (.ok ()) (keptEquations (z.visitTarget batchSize target t))
      (z.visitTarget batchSize target t).state.stats).IsFree a.field z.identity
        (a.table.degreeOf target) := by
  obtain ⟨pairs, hequations, hcoefficients⟩ := exists_equations_of_free ha ht hd hz he hw
  have hempty := equations_eq_nil_iff_of_free ha ht hd hz he hw
  have hkept := Linearization.keptEquations_eq_reached h
  have hcount := congrArg Stats.substitutions (Linearization.stats_visitTarget h)
  rw [hz] at hkept hcount
  rw [← hkept] at hequations hempty
  have hequation : ∀ q ∈ keptEquations (z.visitTarget batchSize target t),
      q.pairs.map Pair.coefficient =
        (List.replicate (z.identity.degrees.map Nat.factorial).prod
          (z.identity.coefficientsOver a.field)).flatten := by
    intro q hq
    rw [hequations] at hq
    split at hq
    · cases hq
    · obtain ⟨s, hs, rfl⟩ := List.mem_map.1 hq
      exact hcoefficients s hs
  refine ⟨?_, fun hcomplete => ?_, fun q hq => ?_, hequation⟩
  · simp only [Outcome.ofResult, Outcome.ofEquations, List.isEmpty_iff, hempty, ite_not]
  · have hne : keptEquations (z.visitTarget batchSize target t) ≠ [] := fun hnil => by
      rw [hnil] at hcomplete
      cases hcomplete
    have hvanishes : z.identity.coefficientsOver a.field ≠ [] := fun hvanishes => by
      rw [hequations, if_pos hvanishes] at hne
      exact hne rfl
    rw [if_neg hvanishes] at hequations
    exact (congrArg List.length hequations).trans (List.length_map _ |>.trans hcount.symm)
  · have hlength := congrArg List.length (hequation q hq)
    simpa [Equation.size, Identity.coefficientsOver] using hlength

end

/-- A run whose token refuses no poll comes to its end: no product that it looks up is missing. -/
theorem PartialAlgebra.IsFreeTo.isFree_generate {a : PartialAlgebra} {d : Nat} (ha : a.IsFreeTo d)
    {target : Name} (ht : a.table.contains target = true)
    (hd : a.table.degreeOf target ≤ d + 1) {e : Identity} (he : e.IsNumbered)
    (hfits : (e.degrees.map Nat.factorial).prod ≤ matchingCapacity) {config : Config} {t : Token}
    (htoken : (generate e target a config t).2.cancelled = false) :
    (generate e target a config t).1.IsFree a.field e (a.table.degreeOf target) := by
  let z : Linearization := ⟨e, a, matchings e.degrees, (e.degrees.map Nat.factorial).prod⟩
  have hz : Linearization.ofIdentity e a = .ok z := by
    rw [Linearization.ofIdentity, matchingCount_eq_ok hfits]
    rfl
  rw [generate_eq_search ht hz] at htoken ⊢
  cases hresult : (z.visitTarget config.batchSize target t).result with
  | ok u => exact isFree_ofResult ha ht hd rfl he rfl config.batchSize t hresult
  | error failure =>
    have hfails := Linearization.visitTarget_failsOnly (grounded_of_ofIdentity ha.built he ht hz)
      config.batchSize t
    rcases hfails.error failure hresult with ⟨l, r, -, hnone, hbelow⟩ | ⟨-, hcancelled⟩
    · obtain ⟨x, hx⟩ := ha.product?_of_isBelow ht hd hbelow
      cases hnone.symm.trans hx
    · cases hcancelled.symm.trans htoken

/-- A run for an identity over the free algebra, truncated one degree below the target or higher. If
its token refuses no poll, it does not fail: it finds equations if the identity fits the target and
does not vanish in the field, and none otherwise. There can be as many generators as a list has room
for bytes. -/
theorem generate_free (f : PrimeField) {target : Multidegree} (hpos : 0 < target.generators)
    (hsize : target.generators ≤ byteCapacity) (maxDegree : Nat) :
    ∃ a, PartialAlgebra.free f target maxDegree = .ok a ∧ Table.ofTarget target = .ok a.table ∧
      ∀ (name : Name) (d : Nat), a.table.degree name = .ok d → d - 1 ≤ maxDegree →
      ∀ (words : Combination) (e : Identity), Identity.ofWords words = .ok e →
        (e.degrees.map Nat.factorial).prod ≤ matchingCapacity →
      ∀ (config : Config) (t : Token),
        (t = .unlimited → (generate e name a config t).2.cancelled = false) ∧
        ((generate e name a config t).2.cancelled = false →
          (generate e name a config t).1.IsFree f e d) := by
  obtain ⟨a, ha, rfl, htable, hfree⟩ := PartialAlgebra.exists_free f hpos hsize maxDegree
  refine ⟨a, ha, htable, fun name d hd hle words e hwords hfits config t => ?_⟩
  obtain ⟨ht, rfl⟩ := Table.degree_eq_ok_iff.1 hd
  have he := Identity.isNumbered_of_ofWords hwords
  exact ⟨fun hu => by rw [(generate_failsOnly hfree.built he ht).1 hu]; rfl,
    hfree.isFree_generate ht (by omega) he hfits⟩

/-- Over the free algebra on one generator, truncated at degree two, the cube is demanded to be zero
in its six orders. -/
theorem generate_free_cube :
    ∃ (a : PartialAlgebra) (cube : Identity),
      PartialAlgebra.free .standard ⟨[3]⟩ 2 = .ok a ∧
      Identity.ofWords [(1, .product (.product (.letter 'x') (.letter 'x')) (.letter 'x'))] =
        .ok cube ∧
      (generate cube 3 a .standard .unlimited).1.status = .complete ∧
      (generate cube 3 a .standard .unlimited).1.equations.length =
        (generate cube 3 a .standard .unlimited).1.stats.substitutions ∧
      ∀ q ∈ (generate cube 3 a .standard .unlimited).1.equations,
        q.size = 6 ∧ q.pairs.map Pair.coefficient = [1, 1, 1, 1, 1, 1] := by
  let cube : Identity := ⟨['x'], [3], [⟨1, .product (.product (.leaf 0 0) (.leaf 0 1)) (.leaf 0 2)⟩]⟩
  have hcube : Identity.ofWords
      [(1, .product (.product (.letter 'x') (.letter 'x')) (.letter 'x'))] = .ok cube := rfl
  have hpos : 0 < (⟨[3]⟩ : Multidegree).generators := by decide
  obtain ⟨a, ha, htable, hruns⟩ := generate_free .standard hpos (by decide) 2
  obtain ⟨t, ht, hdegree⟩ : ∃ t, Table.ofTarget ⟨[3]⟩ = .ok t ∧ t.degree 3 = .ok 3 := ⟨_, rfl, rfl⟩
  obtain rfl : t = a.table := Except.ok.inj (ht.symm.trans htable)
  obtain ⟨htoken, hfree⟩ := hruns 3 3 hdegree le_rfl _ cube hcube (by decide) .standard .unlimited
  obtain ⟨hstatus, hlength, hsize, hcoefficients⟩ := hfree (htoken rfl)
  have hcomplete := hstatus.trans (if_pos ⟨by decide, _, List.mem_singleton_self _, by decide⟩)
  exact ⟨a, cube, ha, hcube, hcomplete, hlength hcomplete,
    fun q hq => ⟨(hsize q hq).trans (by decide), (hcoefficients q hq).trans (by decide)⟩⟩

end Nonassoc
