import Mathlib.Algebra.BigOperators.Group.Finset.Basic
import Mathlib.Algebra.GroupWithZero.Nat
import Mathlib.Data.List.GetD
import Nonassoc.Multidegree

/-!
# Multiplicities as functions

`Multidegree.count m g` is the multiplicity of generator `g` in `m`, as a number without bound and
zero for every number that is not a generator. Over the same generators a multidegree is determined
by this function, and the operations on bytes are those on functions wherever they succeed:
`le_iff`, `add?_eq_some_iff`, `sub?_eq_some_iff`; `degree_eq_sum` is its sum.
-/

namespace Nonassoc

theorem addByte?_eq_some_iff {a b c : UInt8} :
    addByte? a b = some c ↔ c.toNat = a.toNat + b.toNat := by
  refine ⟨toNat_of_addByte?, fun h => ?_⟩
  have hc := c.toNat_lt
  unfold addByte?
  rw [if_pos (by omega), Option.some_inj, ← UInt8.toNat_inj, UInt8.toNat_add]
  omega

theorem subByte?_eq_some_iff {a b c : UInt8} :
    subByte? a b = some c ↔ b.toNat + c.toNat = a.toNat := by
  refine ⟨toNat_of_subByte?, fun h => ?_⟩
  have hle : b ≤ a := UInt8.le_iff_toNat_le.2 (by omega)
  unfold subByte?
  rw [if_pos hle, Option.some_inj, ← UInt8.toNat_inj, UInt8.toNat_sub_of_le _ _ hle]
  omega

theorem total_eq_sum (l : List Nat) : total l = l.sum := by
  induction l with
  | nil => rfl
  | cons n l ih => rw [total_cons, List.sum_cons, ih]

namespace Multidegree

/-- How often a generator occurs. -/
def count (m : Multidegree) (g : Nat) : Nat := (m.components.getD g 0).toNat

theorem count_of_generators_le {m : Multidegree} {g : Nat} (h : m.generators ≤ g) :
    m.count g = 0 := by
  rw [count, List.getD_eq_default _ _ h]
  rfl

theorem eq_of_count {a b : Multidegree} (hg : a.generators = b.generators)
    (hc : a.count = b.count) : a = b := by
  obtain ⟨xs⟩ := a
  obtain ⟨ys⟩ := b
  congr 1
  apply List.ext_getElem hg
  intro g h1 h2
  have := congrFun hc g
  simp only [count, List.getD_eq_getElem _ _ h1, List.getD_eq_getElem _ _ h2] at this
  exact UInt8.toNat_inj.1 this

theorem degree_eq_sum {m : Multidegree} {k : Nat} (h : m.generators ≤ k) :
    m.degree = ∑ g ∈ Finset.range k, m.count g := by
  obtain ⟨xs⟩ := m
  simp only [degree, total_eq_sum, count, generators] at h ⊢
  induction xs generalizing k with
  | nil => simp
  | cons x xs ih =>
    obtain ⟨k, rfl⟩ : ∃ j, k = j + 1 := ⟨k - 1, by simp only [List.length_cons] at h; omega⟩
    rw [Finset.sum_range_succ', List.map_cons, List.sum_cons,
      ih (k := k) (by simpa using h), add_comm]
    rfl

theorem le_iff {a b : Multidegree} :
    a.le b = true ↔ a.generators = b.generators ∧ ∀ g, a.count g ≤ b.count g := by
  obtain ⟨xs⟩ := a
  obtain ⟨ys⟩ := b
  simp only [le, Bool.and_eq_true, beq_iff_eq, generators, count]
  apply and_congr_right
  intro hl
  induction xs generalizing ys with
  | nil =>
    obtain rfl : ys = [] := List.length_eq_zero_iff.1 hl.symm
    simp
  | cons x xs ih =>
    cases ys with
    | nil => simp at hl
    | cons y ys =>
      simp only [List.zip_cons_cons, List.all_cons, Bool.and_eq_true, decide_eq_true_eq,
        ih ys (by simpa using hl)]
      refine ⟨fun ⟨h, hs⟩ g => ?_, fun h => ⟨UInt8.le_iff_toNat_le.2 (h 0), fun g => h (g + 1)⟩⟩
      cases g with
      | zero => exact UInt8.le_iff_toNat_le.1 h
      | succ g => exact hs g

/-! ## Addition and subtraction -/

/-- Beyond the last component the operation would combine zeros. -/
theorem zipComponents?_eq_some_iff {op : UInt8 → UInt8 → Option UInt8} (h0 : op 0 0 = some 0)
    {xs ys zs : List UInt8} (hl : xs.length = ys.length) :
    zipComponents? op xs ys = some zs ↔
      zs.length = xs.length ∧ ∀ g, op (xs.getD g 0) (ys.getD g 0) = some (zs.getD g 0) := by
  induction xs generalizing ys zs with
  | nil =>
    cases ys with
    | cons y ys => cases hl
    | nil => cases zs <;> simp [zipComponents?, h0]
  | cons x xs ih =>
    cases ys with
    | nil => cases hl
    | cons y ys =>
      rw [zipComponents?]
      refine ⟨fun h => ?_, fun hm => ?_⟩
      · split at h
        · cases h
        · rename_i z hz
          obtain ⟨zs', hzs, rfl⟩ := Option.map_eq_some_iff.1 h
          obtain ⟨hlen, hs⟩ := (ih (by simpa using hl)).1 hzs
          refine ⟨by simp [hlen], fun g => ?_⟩
          cases g with
          | zero => exact hz
          | succ g => exact hs g
      · obtain ⟨hlen, hs⟩ := hm
        cases zs with
        | nil => cases hlen
        | cons z zs =>
          have hz : op x y = some z := hs 0
          have hzs : zipComponents? op xs ys = some zs :=
            (ih (by simpa using hl)).2 ⟨by simpa using hlen, fun g => hs (g + 1)⟩
          simp [hz, hzs]

theorem add?_eq_some_iff {a b c : Multidegree} (h : a.generators = b.generators) :
    a.add? b = some c ↔ c.generators = a.generators ∧ c.count = a.count + b.count := by
  obtain ⟨xs⟩ := a
  obtain ⟨ys⟩ := b
  obtain ⟨zs⟩ := c
  have h0 : addByte? 0 0 = some 0 := by decide
  simp only [add?, Option.map_eq_some_iff, mk.injEq, exists_eq_right,
    zipComponents?_eq_some_iff h0 h, addByte?_eq_some_iff, funext_iff, generators, count,
    Pi.add_apply]

theorem sub?_eq_some_iff {a b c : Multidegree} (h : a.generators = b.generators) :
    a.sub? b = some c ↔ c.generators = a.generators ∧ b.count + c.count = a.count := by
  obtain ⟨xs⟩ := a
  obtain ⟨ys⟩ := b
  obtain ⟨zs⟩ := c
  have h0 : subByte? 0 0 = some 0 := by decide
  simp only [sub?, Option.map_eq_some_iff, mk.injEq, exists_eq_right,
    zipComponents?_eq_some_iff h0 h, subByte?_eq_some_iff, funext_iff, generators, count,
    Pi.add_apply]

/-- A function below the multiplicities of `m` is that of a multidegree. -/
theorem exists_count_eq {m : Multidegree} {c : Nat → Nat} (h : ∀ g, c g ≤ m.count g) :
    ∃ a : Multidegree, a.generators = m.generators ∧ a.count = c := by
  refine ⟨⟨(List.range m.generators).map fun g => UInt8.ofNat (c g)⟩, by simp [generators], ?_⟩
  funext g
  by_cases hg : g < m.generators
  · have hb : c g < 256 := Nat.lt_of_le_of_lt (h g) (UInt8.toNat_lt _)
    rw [count, List.getD_eq_getElem _ _ (by simpa using hg)]
    simp only [List.getElem_map, List.getElem_range, UInt8.toNat_ofNat']
    omega
  · rw [count_of_generators_le (by simpa [generators] using hg)]
    have := h g
    rw [count_of_generators_le (Nat.le_of_not_lt hg)] at this
    omega

end Multidegree

end Nonassoc
