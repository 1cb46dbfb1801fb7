import Nonassoc.Proofs.Completions
import Nonassoc.Proofs.Runs

/-!
# Soundness of the equations

The pairs at a substitution add up to the symmetrized value of the identity at its basis elements
(`Completion.pairsValue_of_pairsAt`). Where the identity is zero at all combinations of these, this is
zero by polarization (`Completion.holds_of_vanishesOn`). So every equation that a run returns holds in
every completion in which the identities are satisfied (`generate_sound`), and only the elements of
smaller degree than the target matter (`Completion.holds_of_below`).
-/

namespace Nonassoc

open Search (IsSlotTable Substitution)

namespace Completion

variable {a : PartialAlgebra} (c : Completion a) {e : Identity}

theorem pairsValue_of_pairsAt {z : Linearization} (hz : Linearization.ofIdentity e a = .ok z)
    (he : e.IsNumbered) {s : Substitution} {pairs : List Pair} (h : z.PairsAt s pairs) :
    c.pairsValue pairs = symmetrize (c.value e) 0 e.degrees (family a s) := by
  obtain ⟨rfl, ha, hm⟩ := Linearization.ofIdentity_eq_ok hz
  obtain ⟨ps, hps, rfl⟩ := h
  rw [hm, (yields_matchings _).toList] at hps
  rw [pairsValue_flatten, ← sum_matchingLists]
  apply congrArg List.sum
  rw [← List.forall₂_eq_eq_eq, List.forall₂_map_left_iff, List.forall₂_map_right_iff]
  exact hps.flip.imp fun ps m h => c.pairsValue_of_evaluate ha he h

/-- The vectors of a substitution are combinations of its basis elements. -/
theorem family_mem_supported {s : Substitution} {B : Set BasisId}
    (h : ∀ row ∈ s, ∀ b ∈ row, b ∈ B) (q : Nat × Nat) :
    family a s q ∈ Finsupp.supported (ZMod a.field.prime) (ZMod a.field.prime) B := by
  unfold family Search.Substitution.family
  split
  · rename_i b hb
    obtain ⟨row, hrow, hbrow⟩ := Search.mem_of_slot hb
    exact Finsupp.single_mem_supported _ _ (h row hrow b hbrow)
  · exact Submodule.zero_mem _

/-- The equations of an identity hold if all slot tables consist of basis elements on which it
vanishes. -/
theorem holds_of_vanishesOn (ha : a.basis.Built a.table) (he : e.IsNumbered) {B : Set BasisId}
    (hc : c.VanishesOn e B) {target : Multidegree.Name}
    (hB : ∀ s, IsSlotTable a.table a.basis target e.degrees s → ∀ row ∈ s, ∀ b ∈ row, b ∈ B)
    {config : Config} {t : Token} {q : Equation}
    (hq : q ∈ (generate e target a config t).1.equations) : c.Holds q := by
  obtain ⟨ht, z, hz, s, hs, hpairs⟩ := exists_reached_of_mem hq
  have htable := (Search.mem_reached ht he.degrees_ne_nil ha he.degrees_pos).1 hs
  rw [Holds, c.pairsValue_of_pairsAt hz he hpairs]
  refine symmetrize_eq_zero (c.rowLinear_value he) (fun y hy hrows => ?_)
    (family_mem_supported (hB s htable))
  -- constant rows are a vector for each variable
  rw [← hc (fun v => y (v, 0)) fun v => hy (v, 0)]
  apply c.value_congr
  intro term hterm q hq
  obtain ⟨x, hx⟩ := hrows q.1
  have hlt := ((he.numbered term hterm).mem_iff q.1 q.2).1 hq
  exact (hx q.2 hlt).trans (hx 0 (Nat.zero_lt_of_lt hlt)).symm

theorem holds_of_mem_generate (ha : a.basis.Built a.table) (he : e.IsNumbered)
    (hc : c.Satisfies e) {target : Multidegree.Name} {config : Config} {t : Token} {q : Equation}
    (hq : q ∈ (generate e target a config t).1.equations) : c.Holds q :=
  c.holds_of_vanishesOn ha he hc (fun _ hs row hrow b hb => (hs.cells row hrow b hb).1) hq

/-- An identity of degree two or more need only vanish on the basis elements of smaller degree than
the target. -/
theorem holds_of_below (ha : a.basis.Built a.table) (he : e.IsNumbered) (hd : 2 ≤ e.degrees.sum)
    {target : Multidegree.Name}
    (hc : c.VanishesOn e {b | a.table.degreeOf (a.basis.nameAt b) < a.table.degreeOf target})
    {config : Config} {t : Token} {q : Equation}
    (hq : q ∈ (generate e target a config t).1.equations) : c.Holds q :=
  c.holds_of_vanishesOn ha he hc
    (fun _ hs row hrow _ hb => hs.degreeOf_lt hd (List.mem_flatten.2 ⟨row, hrow, hb⟩)) hq

end Completion

/-- Every equation that is generated for identities holds in every completion that satisfies
them. -/
theorem generate_sound {a : PartialAlgebra} (ha : a.basis.Built a.table)
    {identities : List Identity} (hi : ∀ e ∈ identities, ∃ words, Identity.ofWords words = .ok e)
    (c : Completion a) (hc : ∀ e ∈ identities, c.Satisfies e) (target : Multidegree.Name)
    (config : Config) (t : Token) :
    (∀ e ∈ identities, ∀ q ∈ (generate e target a config t).1.equations, c.Holds q) ∧
      ∀ q ∈ (generateAll identities target a config t).1.equations, c.Holds q := by
  have hsingle : ∀ e ∈ identities, ∀ t, ∀ q ∈ (generate e target a config t).1.equations,
      c.Holds q := by
    intro e he t q hq
    obtain ⟨words, hwords⟩ := hi e he
    exact c.holds_of_mem_generate ha (Identity.isNumbered_of_ofWords hwords) (hc e he) hq
  refine ⟨fun e he => hsingle e he t, fun q hq => ?_⟩
  obtain ⟨e, he, t', hq⟩ := mem_of_mem_generateAll hq
  exact hsingle e he t' q hq

/-- The commutator, in a commutative product. -/
theorem generate_sound_commutator :
    ∃ (a : PartialAlgebra) (e : Identity) (c : Completion a),
      Multidegree.Table.ofTarget ⟨[1, 1]⟩ = .ok a.table ∧
      a.basis = ((Basis.empty a.table).pushAllGenerators a.table).2 ∧
      Identity.ofWords [(1, .product (.letter 'x') (.letter 'y')),
        (-1, .product (.letter 'y') (.letter 'x'))] = .ok e ∧
      c.Satisfies e ∧ c.mul (Finsupp.single 0 1) (Finsupp.single 0 1) ≠ 0 ∧
      ∀ q ∈ (generateAll [e] 3 a .standard .unlimited).1.equations, c.Holds q := by
  obtain ⟨t, ht⟩ : ∃ t, Multidegree.Table.ofTarget ⟨[1, 1]⟩ = .ok t := ⟨_, rfl⟩
  let a : PartialAlgebra := ⟨.standard, t, ((Basis.empty t).pushAllGenerators t).2, .empty⟩
  let c := Completion.ofEmpty (a := a) rfl (a.field.singleProduct 0 0 0)
  have hmul : ∀ u v, c.mul u v = Finsupp.single 0 (u 0 * v 0) := PrimeField.singleProduct_apply 0 0 0
  let e : Identity := ⟨['x', 'y'], [1, 1],
    [⟨1, .product (.leaf 0 0) (.leaf 1 0)⟩, ⟨-1, .product (.leaf 1 0) (.leaf 0 0)⟩]⟩
  have he : Identity.ofWords [(1, .product (.letter 'x') (.letter 'y')),
      (-1, .product (.letter 'y') (.letter 'x'))] = .ok e := rfl
  have hc : c.Satisfies e := by
    intro x _
    rw [c.value_commutator, hmul, hmul, mul_comm, sub_self]
  have hne : c.mul (Finsupp.single 0 1) (Finsupp.single 0 1) ≠ 0 := by
    rw [hmul, Finsupp.single_eq_same, one_mul]
    exact Finsupp.single_ne_zero.2 one_ne_zero
  refine ⟨a, e, c, ht, rfl, he, hc, hne, ?_⟩
  refine (generate_sound Basis.Built.empty.pushAllGenerators (fun e' he' => ?_) c
    (fun e' he' => ?_) 3 .standard .unlimited).2
  · exact ⟨_, List.mem_singleton.1 he' ▸ he⟩
  · exact List.mem_singleton.1 he' ▸ hc

end Nonassoc
