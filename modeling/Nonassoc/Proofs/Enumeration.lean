import Nonassoc.Multidegree.Table
import Nonassoc.Proofs.Choices
import Nonassoc.Proofs.Multiplicity

/-!
# The list below a target

`Multidegree.below target` holds exactly the multidegrees that are at most the target (`mem_below`),
each once (`nodup_below`). `degree_of_blocksFrom` says where the block of a degree stands: an entry
is in front of it, in it or after it as its degree tells. So degrees never decrease along the list.
-/

namespace Nonassoc

namespace Multidegree

theorem le_iff_forall₂ {a b : Multidegree} :
    a.le b = true ↔ List.Forall₂ (· ≤ ·) a.components b.components := by
  obtain ⟨xs⟩ := a
  obtain ⟨ys⟩ := b
  simp only [le, generators, Bool.and_eq_true, beq_iff_eq, List.all_eq_true, decide_eq_true_eq]
  induction xs generalizing ys with
  | nil => cases ys <;> simp
  | cons x xs ih =>
    cases ys with
    | nil => simp
    | cons y ys =>
      rw [List.forall₂_cons, ← ih ys]
      simp only [List.length_cons, Nat.add_right_cancel_iff, List.zip_cons_cons, List.mem_cons,
        forall_eq_or_imp]
      tauto

theorem total_le_total {xs ys : List UInt8} (h : List.Forall₂ (· ≤ ·) xs ys) :
    total (xs.map UInt8.toNat) ≤ total (ys.map UInt8.toNat) := by
  induction h with
  | nil => exact Nat.le_refl _
  | cons hxy _ ih => exact Nat.add_le_add (UInt8.le_iff_toNat_le.1 hxy) ih

/-! ## Lists with a given sum -/

/-- The room after a bound is the sum of the bounds after it. -/
theorem withRoom_cons (b : UInt8) (rest : List UInt8) :
    withRoom (b :: rest) = (b, total (rest.map UInt8.toNat)) :: withRoom rest := by
  induction rest generalizing b with
  | nil => rfl
  | cons c rest ih =>
    rw [withRoom, ih c]
    rfl

theorem mem_entryValues {bound : UInt8} {room d x : Nat} :
    x ∈ entryValues bound room d ↔ d - room ≤ x ∧ x ≤ bound.toNat ∧ x ≤ d := by
  rw [entryValues, List.mem_range'_1]
  omega

/-- The first entry and the sum of the others, whatever the sum is. -/
theorem mem_withSum_cons {b y : UInt8} {rest ys : List UInt8} {d : Nat} :
    y :: ys ∈ withSum (withRoom (b :: rest)) d ↔
      d - total (rest.map UInt8.toNat) ≤ y.toNat ∧ y ≤ b ∧ y.toNat ≤ d ∧
        ys ∈ withSum (withRoom rest) (d - y.toNat) := by
  rw [withRoom_cons]
  cases d with
  | zero =>
    simp only [withSum_zero, List.map_cons, List.mem_singleton, List.cons.injEq, Nat.zero_sub,
      Nat.le_zero]
    refine ⟨fun h => ?_, fun h => ?_⟩
    · obtain ⟨rfl, rfl⟩ := h
      simp
    · obtain ⟨-, -, hy, rfl⟩ := h
      exact ⟨UInt8.toNat_inj.1 hy, rfl⟩
  | succ d =>
    simp only [withSum_cons_succ, List.mem_flatMap, mem_entryValues, List.mem_map,
      List.cons.injEq]
    refine ⟨fun hm => ?_, fun hm => ?_⟩
    · obtain ⟨x, ⟨h1, h2, h3⟩, zs, hzs, rfl, rfl⟩ := hm
      have hx : (UInt8.ofNat x).toNat = x := by
        have := b.toNat_lt
        rw [UInt8.toNat_ofNat']
        omega
      rw [UInt8.le_iff_toNat_le, hx]
      exact ⟨h1, h2, h3, hzs⟩
    · obtain ⟨h1, h2, h3, hys⟩ := hm
      exact ⟨y.toNat, ⟨h1, UInt8.le_iff_toNat_le.1 h2, h3⟩, ys, hys, UInt8.ofNat_toNat, rfl⟩

theorem nil_notMem_withSum_cons {b : UInt8} {rest : List UInt8} {d : Nat} :
    [] ∉ withSum (withRoom (b :: rest)) d := by
  rw [withRoom_cons]
  cases d with
  | zero => simp [withSum_zero]
  | succ d => simp [withSum_cons_succ]

theorem mem_withSum {bounds xs : List UInt8} {d : Nat} :
    xs ∈ withSum (withRoom bounds) d ↔
      List.Forall₂ (· ≤ ·) xs bounds ∧ total (xs.map UInt8.toNat) = d := by
  induction bounds generalizing xs d with
  | nil => cases d <;> cases xs <;> simp [withRoom, withSum, withSumBefore]
  | cons b rest ih =>
    cases xs with
    | nil => simp [nil_notMem_withSum_cons]
    | cons y ys =>
      rw [mem_withSum_cons, ih, List.forall₂_cons, List.map_cons, total_cons]
      refine ⟨fun h => ?_, fun h => ?_⟩
      · obtain ⟨-, hy, hd, hys, hs⟩ := h
        exact ⟨⟨hy, hys⟩, by omega⟩
      · obtain ⟨⟨hy, hys⟩, hs⟩ := h
        have := total_le_total hys
        exact ⟨by omega, hy, by omega, hys, by omega⟩

theorem nodup_withSum (bounds : List UInt8) (d : Nat) : (withSum (withRoom bounds) d).Nodup := by
  induction bounds generalizing d with
  | nil => cases d <;> simp [withRoom, withSum, withSumBefore]
  | cons b rest ih =>
    rw [withRoom_cons]
    cases d with
    | zero => simp [withSum_zero]
    | succ d =>
      rw [withSum_cons_succ]
      refine nodup_flatMap_of_key (fun ys => (ys.headD 0).toNat) List.nodup_range' ?_ ?_
      · exact fun x _ => (ih _).map (List.cons_injective)
      · intro x hx ys hys
        obtain ⟨zs, -, rfl⟩ := List.mem_map.1 hys
        have := (mem_entryValues.1 hx).2.1
        have := b.toNat_lt
        simp only [List.headD_cons, UInt8.toNat_ofNat']
        omega

/-! ## The list below a target -/

theorem below_eq (target : Multidegree) :
    target.below = (List.range (target.degree + 1)).flatMap fun d =>
      (withSum (withRoom target.components) d).map mk := rfl

theorem mem_below {target m : Multidegree} : m ∈ target.below ↔ m.le target = true := by
  simp only [below_eq, List.mem_flatMap, List.mem_range, List.mem_map, mem_withSum,
    le_iff_forall₂]
  refine ⟨fun hm => ?_, fun h => ?_⟩
  · obtain ⟨d, -, xs, ⟨h, -⟩, rfl⟩ := hm
    exact h
  · exact ⟨m.degree, Nat.lt_succ_of_le (total_le_total h), m.components, ⟨h, rfl⟩, rfl⟩

theorem nodup_below (target : Multidegree) : target.below.Nodup := by
  refine nodup_flatMap_of_key degree List.nodup_range ?_ ?_
  · exact fun d _ => (nodup_withSum _ _).map fun _ _ h => congrArg components h
  · intro d _ m hm
    obtain ⟨xs, hxs, rfl⟩ := List.mem_map.1 hm
    exact (mem_withSum.1 hxs).2

/-! ## Blocks of one degree -/

theorem length_blocksFrom (first : Nat) (lens : List Nat) :
    (blocksFrom first lens).length = lens.length := by
  induction lens generalizing first with
  | nil => rfl
  | cons n lens ih => simp [blocksFrom, ih]

theorem bounds_of_blocksFrom {first : Nat} {lens : List Nat} {d f p : Nat}
    (h : (blocksFrom first lens)[d]? = some (f, p)) :
    first ≤ f ∧ f ≤ p ∧ p ≤ first + total lens := by
  induction lens generalizing first d with
  | nil => cases h
  | cons n lens ih =>
    cases d with
    | zero =>
      cases h
      simp only [total_cons]
      omega
    | succ d =>
      have hrest : (blocksFrom (first + n) lens)[d]? = some (f, p) := h
      have := ih hrest
      simp only [total_cons]
      omega

/-- An entry of a list of levels, the first one of degree `k`, is at or after the start of a block
if its degree is at least that of the block, and before the end if its degree is at most that. -/
theorem degree_of_blocksFrom {levels : List (List Multidegree)} {k first : Nat}
    (h : ∀ i l, levels[i]? = some l → ∀ m ∈ l, m.degree = k + i) {n d f p : Nat}
    {m : Multidegree} (hm : levels.flatten[n]? = some m)
    (hd : (blocksFrom first (levels.map List.length))[d]? = some (f, p)) :
    (f ≤ first + n ↔ k + d ≤ m.degree) ∧ (first + n < p ↔ m.degree ≤ k + d) := by
  induction levels generalizing k first n d with
  | nil => cases hm
  | cons l levels ih =>
    have hrest : ∀ i l', levels[i]? = some l' → ∀ m ∈ l', m.degree = k + 1 + i := by
      intro i l' hl' m hm
      have := h (i + 1) l' hl' m hm
      omega
    have hblocks : ∀ d, (blocksFrom first ((l :: levels).map List.length))[d + 1]? =
        (blocksFrom (first + l.length) (levels.map List.length))[d]? := fun d => rfl
    rw [List.flatten_cons] at hm
    by_cases hn : n < l.length
    · -- the entry is in the first level
      rw [List.getElem?_append_left hn] at hm
      have hk : m.degree = k := h 0 l rfl m (List.mem_of_getElem? hm)
      cases d with
      | zero =>
        cases hd
        omega
      | succ d =>
        rw [hblocks] at hd
        have := bounds_of_blocksFrom hd
        omega
    · rw [List.getElem?_append_right (Nat.le_of_not_lt hn)] at hm
      cases d with
      | zero =>
        cases hd
        obtain ⟨l', hl', hml'⟩ := List.mem_flatten.1 (List.mem_of_getElem? hm)
        obtain ⟨i, hi⟩ := List.getElem?_of_mem hl'
        have := hrest i l' hi m hml'
        omega
      | succ d =>
        rw [hblocks] at hd
        have := ih hrest hm hd
        omega

end Multidegree

end Nonassoc
