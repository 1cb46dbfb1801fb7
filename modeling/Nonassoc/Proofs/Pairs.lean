import Nonassoc.Proofs.Accounts
import Nonassoc.Proofs.FreeRuns

/-!
# Every pair has the target's multidegree

At every slot table the leaves of a term have multidegrees that add up to the target, and the values
of its two outermost factors have those of their own leaves (`isOf_of_evaluateTerm`). So the two basis
elements of every pair that a run returns have multidegrees that add up to the target, and its
coefficient is a residue that is not zero (`generate_pairs`).
-/

namespace Nonassoc

open Multidegree (Name Table)
open Search (IsSlotTable Substitution)

variable {a : PartialAlgebra}

/-- A pair of basis elements whose product has the given multidegree, with a coefficient from the
field that is not zero. -/
structure Pair.IsOf (a : PartialAlgebra) (target : Name) (p : Pair) : Prop where
  names : ∃ m n, a.basis.nameOf p.left = .ok m ∧ a.basis.nameOf p.right = .ok n ∧
    a.table.add m n = .ok (some target)
  coefficient_ne_zero : p.coefficient ≠ 0
  coefficient_lt : p.coefficient < a.field.prime

theorem mem_pairsOf {f : PrimeField} {c : Scalar} {x y : Element} {p : Pair}
    (h : p ∈ Linearization.pairsOf f c x y) :
    ∃ l ∈ x.terms, ∃ r ∈ y.terms, p = ⟨f.mul c (f.mul l.2 r.2), l.1, r.1⟩ := by
  obtain ⟨l, hl, h⟩ := List.mem_flatMap.1 h
  obtain ⟨r, hr, rfl⟩ := List.mem_map.1 h
  exact ⟨l, hl, r, hr, rfl⟩

theorem isOf_of_evaluateTerm (ha : a.Built) {target : Name}
    (ht : a.table.contains target = true) {degrees : List Nat} {s : Substitution}
    (hs : IsSlotTable a.table a.basis target degrees s) {m : Matching}
    (hm : m ∈ matchingLists degrees) {term : Term} (hp : term.pattern.IsNumbered degrees)
    {pairs : List Pair} (h : Linearization.evaluateTerm a s m term = .ok pairs) :
    ∀ p ∈ pairs, p.IsOf a target := by
  have hcells : ∀ row ∈ s, ∀ x ∈ row, a.basis.contains x = true :=
    fun row hrow x hx => (hs.cells row hrow x hx).1
  unfold Linearization.evaluateTerm at h
  split at h
  · cases h
    exact nofun
  rename_i l r hpattern
  simp only at h
  split at h
  · cases h
    exact nofun
  rename_i hc
  obtain ⟨u, hu, h⟩ := bind_eq_ok.1 h
  obtain ⟨v, hv, h⟩ := bind_eq_ok.1 h
  cases h
  intro p hmem
  obtain ⟨x, hx, y, hy, rfl⟩ := mem_pairsOf hmem
  obtain ⟨hcx, hx'⟩ := hasCount_of_evaluatePattern ha hcells hu x hx
  obtain ⟨hcy, hy'⟩ := hasCount_of_evaluatePattern ha hcells hv y hy
  have hsum := sum_leaves hp
    (m.read 0 (s.family fun b => a.table.count (a.basis.nameAt b)))
  rw [placesSum_read hm, placesSum_family hs.lengths, hs.sum, hpattern, Pattern.leaves,
    List.map_append, List.sum_append] at hsum
  have hcoefficient := PrimeField.IsUnit.mul ⟨hc, PrimeField.ofInt_lt _⟩
    (((Completion.truncated a).vector_of_evaluatePattern hu).1.units x hx |>.mul
      (((Completion.truncated a).vector_of_evaluatePattern hv).1.units y hy))
  refine ⟨⟨_, _, Basis.nameOf_eq_ok_iff_nameAt.2 ⟨hcx, rfl⟩,
    Basis.nameOf_eq_ok_iff_nameAt.2 ⟨hcy, rfl⟩, ?_⟩, hcoefficient.1, hcoefficient.2⟩
  refine (Table.add_eq_some_iff (ha.basis.contains_nameAt hcx)
    (ha.basis.contains_nameAt hcy)).2 ⟨ht, ?_⟩
  rw [hx', hy', hsum]

theorem isOf_of_mem_generate (ha : a.Built) {e : Identity} (he : e.IsNumbered) {target : Name}
    {config : Config} {t : Token} {q : Equation}
    (hq : q ∈ (generate e target a config t).1.equations) : ∀ p ∈ q.pairs, p.IsOf a target := by
  obtain ⟨ht, z, hz, s, hs, ps, hps, hpairs⟩ := exists_reached_of_mem hq
  obtain ⟨rfl, rfl, hmatchings⟩ := Linearization.ofIdentity_eq_ok hz
  have htable := (Search.mem_reached ht he.degrees_ne_nil ha.basis he.degrees_pos).1 hs
  rw [hmatchings, (yields_matchings _).toList] at hps
  intro p hp
  rw [hpairs] at hp
  obtain ⟨m, hm, pairs, heval, hp⟩ := exists_of_mem_flatten hps hp
  obtain ⟨terms, hterms, heval⟩ := bind_eq_ok.1 heval
  cases heval
  obtain ⟨term, hterm, pairs, heval, hp⟩ := exists_of_mem_flatten (mapM_eq_ok.1 hterms) hp
  exact isOf_of_evaluateTerm ha ht htable hm (he.numbered term hterm) heval p hp

/-- However a run ends, every pair of every equation that it returns consists of two basis elements
whose multidegrees add up to the target, and of a residue that is not zero. -/
theorem generate_pairs (ha : a.Built) {identities : List Identity}
    (hi : ∀ e ∈ identities, ∃ words, Identity.ofWords words = .ok e) (target : Name)
    (config : Config) (t : Token) :
    (∀ e ∈ identities, ∀ q ∈ (generate e target a config t).1.equations,
        ∀ p ∈ q.pairs, p.IsOf a target) ∧
      ∀ q ∈ (generateAll identities target a config t).1.equations,
        ∀ p ∈ q.pairs, p.IsOf a target := by
  have hsingle : ∀ e ∈ identities, ∀ t, ∀ q ∈ (generate e target a config t).1.equations,
      ∀ p ∈ q.pairs, p.IsOf a target := by
    intro e he t q hq
    obtain ⟨words, hwords⟩ := hi e he
    exact isOf_of_mem_generate ha (Identity.isNumbered_of_ofWords hwords) hq
  refine ⟨fun e he => hsingle e he t, fun q hq => ?_⟩
  obtain ⟨e, he, t', hq⟩ := mem_of_mem_generateAll hq
  exact hsingle e he t' q hq

/-- Over the free algebra on one generator, truncated at degree two, the two cubes are demanded to be
the same. Both contain the square, which is a known product. -/
theorem generate_pairs_cubes :
    ∃ (a : PartialAlgebra) (e : Identity), PartialAlgebra.free .standard ⟨[3]⟩ 2 = .ok a ∧ a.Built ∧
      (∃ x y, a.basis.nameOf x = .ok 1 ∧ a.products.product? x x = some (Element.basis y)) ∧
      Identity.ofWords [(1, .product (.product (.letter 'x') (.letter 'x')) (.letter 'x')),
        (-1, .product (.letter 'x') (.product (.letter 'x') (.letter 'x')))] = .ok e ∧
      (generate e 3 a .standard .unlimited).1.equations ≠ [] ∧
      (∀ q ∈ (generate e 3 a .standard .unlimited).1.equations,
        q.size = 12 ∧ ∀ p ∈ q.pairs, p.IsOf a 3) ∧
      ∀ q ∈ (generateAll [e] 3 a .standard .unlimited).1.equations, ∀ p ∈ q.pairs, p.IsOf a 3 := by
  have hpos : 0 < (⟨[3]⟩ : Multidegree).generators := by decide
  obtain ⟨a, hfree, hfield, htable, hfreeTo⟩ :=
    PartialAlgebra.exists_free .standard hpos (by decide) 2
  obtain ⟨t, ht, h1, h2, h3⟩ : ∃ t, Table.ofTarget ⟨[3]⟩ = .ok t ∧ t.entry 1 = .ok ⟨[1]⟩ ∧
      t.entry 2 = .ok ⟨[2]⟩ ∧ t.entry 3 = .ok ⟨[3]⟩ := ⟨_, rfl, rfl, rfl, rfl⟩
  obtain rfl : t = a.table := Except.ok.inj (ht.symm.trans htable)
  have hone : a.table.degreeOf 1 = 1 := Table.degreeOf_of_entry h1
  have htwo : a.table.degreeOf 2 = 2 := Table.degreeOf_of_entry h2
  have hthree : a.table.degreeOf 3 = 3 := Table.degreeOf_of_entry h3
  have hcontains := Table.contains_iff.2 ⟨_, h3⟩
  have hbuilt := PartialAlgebra.built_of_free hfree
  have hsquare : ∃ x y, a.basis.nameOf x = .ok 1 ∧
      a.products.product? x x = some (Element.basis y) := by
    obtain ⟨x, hx⟩ := hfreeTo.elements 1 (Table.contains_iff.2 ⟨_, h1⟩) (by omega) (by omega)
    obtain ⟨y, hy⟩ := hfreeTo.products x x 1 1 2 hx hx (Table.add_of_entry h1 h1 h2 rfl) htwo.le
    exact ⟨x, y, hx, hy⟩
  let e : Identity := ⟨['x'], [3], [⟨1, .product (.product (.leaf 0 0) (.leaf 0 1)) (.leaf 0 2)⟩,
    ⟨-1, .product (.leaf 0 0) (.product (.leaf 0 1) (.leaf 0 2))⟩]⟩
  have he : Identity.ofWords [(1, .product (.product (.letter 'x') (.letter 'x')) (.letter 'x')),
      (-1, .product (.letter 'x') (.product (.letter 'x') (.letter 'x')))] = .ok e := rfl
  have hnumbered := Identity.isNumbered_of_ofWords he
  have htoken : (generate e 3 a .standard .unlimited).2.cancelled = false := by
    rw [(generate_failsOnly hbuilt hnumbered hcontains).1 rfl]
    rfl
  obtain ⟨hstatus, -, hsize, -⟩ := hfreeTo.isFree_generate hcontains hthree.le hnumbered (by decide)
    htoken
  rw [hfield] at hstatus hsize
  have hcomplete := hstatus.trans (if_pos ⟨by rw [hthree]; decide, _, List.mem_cons_self,
    by decide⟩)
  have hi : ∀ e' ∈ [e], ∃ words, Identity.ofWords words = .ok e' := fun e' he' =>
    ⟨_, List.mem_singleton.1 he' ▸ he⟩
  obtain ⟨hsingle, hall⟩ := generate_pairs hbuilt hi 3 .standard .unlimited
  exact ⟨a, e, hfree, hbuilt, hsquare, he, exact_generate.complete hcomplete,
    fun q hq => ⟨(hsize q hq).trans (by decide), hsingle e (List.mem_singleton_self e) q hq⟩, hall⟩

end Nonassoc
