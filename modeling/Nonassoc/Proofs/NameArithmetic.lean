import Nonassoc.Proofs.NameOrder

/-!
# Arithmetic on names

Adding names is adding multiplicities, and there is a sum as long as the target leaves room for it
(`Table.exists_add_iff`); subtraction undoes it (`Table.subtract_eq_some_iff_add`). So the names of a
table are a partial commutative monoid in which summands can be cancelled, and adding a name to others
keeps their order (`Table.add_lt_add_iff`). Main result: `Table.isPartialMonoid`.
-/

namespace Nonassoc.Multidegree

theorem map_toNat_components (m : Multidegree) :
    m.components.map UInt8.toNat = (List.range m.generators).map m.count := by
  refine List.ext_getElem (by simp [generators]) fun g hg _ => ?_
  rw [List.length_map] at hg
  simp only [List.getElem_map, List.getElem_range, count, List.getD_eq_getElem _ _ hg]

/-- The same numbers added on both sides do not change which list comes first. -/
theorem map_add_lt_iff (l : List Nat) (f g h : Nat → Nat) :
    l.map (f + h) < l.map (g + h) ↔ l.map f < l.map g := by
  induction l with
  | nil => rfl
  | cons i l ih =>
    simp only [List.map_cons, List.cons_lt_cons_iff, Pi.add_apply, Nat.add_lt_add_iff_right,
      Nat.add_right_cancel_iff, ih]

namespace Table

variable {t : Table} {a b c : Name}

/-! ## Sums and differences -/

/-- What looks up two names needs both of them. -/
theorem contains_of_entries {f : Multidegree → Multidegree → Option Name} {s : Option Name}
    (h : (do return f (← t.entry a) (← t.entry b)) = Except.ok s) :
    t.contains a = true ∧ t.contains b = true := by
  obtain ⟨x, hx, h⟩ := bind_eq_ok.1 h
  obtain ⟨y, hy, -⟩ := bind_eq_ok.1 h
  exact ⟨contains_iff.2 ⟨x, hx⟩, contains_iff.2 ⟨y, hy⟩⟩

theorem contains_of_add {s : Option Name} (h : t.add a b = .ok s) :
    t.contains a = true ∧ t.contains b = true := contains_of_entries h

theorem contains_of_subtract {s : Option Name} (h : t.subtract a b = .ok s) :
    t.contains a = true ∧ t.contains b = true := contains_of_entries h

theorem count_of_add (h : t.add a b = .ok (some c)) :
    t.contains c = true ∧ t.count a + t.count b = t.count c :=
  have hab := contains_of_add h
  (add_eq_some_iff hab.1 hab.2).1 h

/-- There is a sum if and only if the target has room for it. -/
theorem exists_add_iff (ha : t.contains a = true) (hb : t.contains b = true) :
    (∃ c, t.add a b = .ok (some c)) ↔ t.count a + t.count b ≤ t.target.count := by
  constructor
  · rintro ⟨c, hc⟩
    rw [(count_of_add hc).2]
    exact count_le_target c
  · intro hle
    obtain ⟨c, hc, hcount⟩ := exists_name hle
    exact ⟨c, (add_eq_some_iff ha hb).2 ⟨hc, hcount.symm⟩⟩

/-- Subtraction undoes addition. -/
theorem subtract_eq_some_iff_add (ha : t.contains a = true) (hb : t.contains b = true)
    (hc : t.contains c = true) : t.subtract a b = .ok (some c) ↔ t.add b c = .ok (some a) := by
  rw [subtract_eq_some_iff ha hb, add_eq_some_iff hb hc, and_iff_right hc, and_iff_right ha]

/-- There is a difference if and only if the name to be subtracted is at most the other one. -/
theorem exists_subtract_iff (ha : t.contains a = true) (hb : t.contains b = true) :
    (∃ c, t.subtract a b = .ok (some c)) ↔ t.le b a = .ok true := by
  simp only [subtract_eq_some_iff ha hb, le_eq_ok_true_iff hb ha]
  constructor
  · rintro ⟨c, -, hc⟩ g
    rw [← hc]
    exact Nat.le_add_right _ _
  · intro hle
    obtain ⟨c, hc, hcount⟩ := exists_name (c := t.count a - t.count b) fun g =>
      (Nat.sub_le _ _).trans (count_le_target a g)
    refine ⟨c, hc, funext fun g => ?_⟩
    rw [hcount]
    exact Nat.add_sub_of_le (hle g)

/-! ## The laws -/

/-- The sum of names that may themselves be missing, being sums. -/
def addPartial (t : Table) : Option Name → Option Name → Except Fault (Option Name)
  | some a, some b => t.add a b
  | _, _ => .ok none

/-- Computations that do not fail are the same if they have the same names as results. -/
theorem eq_of_some_iff {x y : Except Fault (Option Name)} (hx : ∃ s, x = .ok s)
    (hy : ∃ s, y = .ok s) (h : ∀ c, x = .ok (some c) ↔ y = .ok (some c)) : x = y := by
  obtain ⟨s, rfl⟩ := hx
  obtain ⟨s', rfl⟩ := hy
  exact congrArg _ (Option.ext fun c => by simpa using h c)

theorem add_symm (ha : t.contains a = true) (hb : t.contains b = true) : t.add a b = t.add b a := by
  refine eq_of_some_iff (add_eq_ok ha hb) (add_eq_ok hb ha) fun c => ?_
  rw [add_eq_some_iff ha hb, add_eq_some_iff hb ha, add_comm]

/-- The first name is the one that nothing is added by. -/
theorem add_zero_eq (ha : t.contains a = true) : t.add a 0 = .ok (some a) := by
  have hzero : t.contains 0 = true := decide_eq_true ((Nat.zero_le a).trans_lt (of_decide_eq_true ha))
  have hdegree : t.degreeOf 0 = 0 := Nat.le_zero.1 (degreeOf_le hzero)
  have hcount : t.count 0 = 0 := by
    by_contra hne
    obtain ⟨z, -, hz⟩ := exists_name (t := t) (c := 0) fun g => Nat.zero_le _
    have hlt : t.count z < t.count 0 := hz ▸ lt_of_le_of_ne (fun g => Nat.zero_le _) (Ne.symm hne)
    exact Nat.not_lt_zero _ (hdegree ▸ degreeOf_lt hlt)
  exact (add_eq_some_iff ha hzero).2 ⟨ha, by rw [hcount, add_zero]⟩

theorem exists_addPartial_left (ha : t.contains a = true) (hb : t.contains b = true)
    (hc : t.contains c = true) : ∃ s, (t.add a b >>= fun s => t.addPartial s (some c)) = .ok s := by
  obtain ⟨s, hs⟩ := add_eq_ok ha hb
  rw [hs]
  cases s with
  | none => exact ⟨none, rfl⟩
  | some s => exact add_eq_ok (count_of_add hs).1 hc

/-- Three names can be added one after the other if the target has room for all of them, since then it
has room for the first two. -/
theorem addPartial_left_eq_some_iff (ha : t.contains a = true) (hb : t.contains b = true)
    (hc : t.contains c = true) {d : Name} :
    (t.add a b >>= fun s => t.addPartial s (some c)) = .ok (some d) ↔
      t.contains d = true ∧ t.count a + t.count b + t.count c = t.count d := by
  rw [bind_eq_ok]
  constructor
  · rintro ⟨s, hs, hd⟩
    cases s with
    | none => cases hd
    | some s =>
      obtain ⟨-, hab⟩ := count_of_add hs
      rw [hab]
      exact count_of_add hd
  · rintro ⟨hd, hsum⟩
    obtain ⟨s, hs⟩ := (exists_add_iff ha hb).2 fun g => by
      refine le_trans ?_ (count_le_target d g)
      rw [← hsum]
      exact Nat.le_add_right _ _
    obtain ⟨hcontains, hab⟩ := count_of_add hs
    exact ⟨some s, hs, (add_eq_some_iff hcontains hc).2 ⟨hd, hab ▸ hsum⟩⟩

theorem addPartial_right_eq (ha : t.contains a = true) (hb : t.contains b = true)
    (hc : t.contains c = true) : (t.add b c >>= fun s => t.addPartial (some a) s) =
      t.add b c >>= fun s => t.addPartial s (some a) := by
  obtain ⟨s, hs⟩ := add_eq_ok hb hc
  rw [hs]
  cases s with
  | none => rfl
  | some s => exact add_symm ha (count_of_add hs).1

theorem add_assoc_eq (ha : t.contains a = true) (hb : t.contains b = true)
    (hc : t.contains c = true) : (t.add a b >>= fun s => t.addPartial s (some c)) =
      t.add b c >>= fun s => t.addPartial (some a) s := by
  rw [addPartial_right_eq ha hb hc]
  refine eq_of_some_iff (exists_addPartial_left ha hb hc) (exists_addPartial_left hb hc ha)
    fun d => ?_
  rw [addPartial_left_eq_some_iff ha hb hc, addPartial_left_eq_some_iff hb hc ha, add_assoc,
    add_comm (t.count a)]

theorem add_cancel {d : Name} (hb : t.add a b = .ok (some d)) (hc : t.add a c = .ok (some d)) :
    b = c := by
  refine eq_of_count (contains_of_add hb).2 (contains_of_add hc).2 ?_
  exact add_left_cancel ((count_of_add hb).2.trans (count_of_add hc).2.symm)

theorem degree_of_add (h : t.add a b = .ok (some c)) :
    ∃ d e, t.degree a = .ok d ∧ t.degree b = .ok e ∧ t.degree c = .ok (d + e) := by
  obtain ⟨ha, hb⟩ := contains_of_add h
  obtain ⟨hc, hcount⟩ := count_of_add h
  refine ⟨_, _, degree_eq ha, degree_eq hb, ?_⟩
  rw [degree_eq hc, degreeOf_add hcount]

theorem degree_of_subtract (h : t.subtract a b = .ok (some c)) :
    ∃ d e, t.degree a = .ok d ∧ t.degree b = .ok e ∧ e ≤ d ∧ t.degree c = .ok (d - e) := by
  obtain ⟨ha, hb⟩ := contains_of_subtract h
  obtain ⟨hc, -⟩ := (subtract_eq_some_iff ha hb).1 h
  obtain ⟨e, d, he, hd, hsum⟩ := degree_of_add ((subtract_eq_some_iff_add ha hb hc).1 h)
  exact ⟨e + d, e, hsum, he, Nat.le_add_right e d, by rw [Nat.add_sub_cancel_left, hd]⟩

/-! ## The order -/

/-- Names come by degree, and within one degree lexicographically. -/
theorem lt_iff_count (ha : t.contains a = true) (hb : t.contains b = true) :
    a < b ↔ t.degreeOf a < t.degreeOf b ∨ t.degreeOf a = t.degreeOf b ∧
      (List.range t.target.generators).map (t.count a) <
        (List.range t.target.generators).map (t.count b) := by
  obtain ⟨x, hx⟩ := contains_iff.1 ha
  obtain ⟨y, hy⟩ := contains_iff.1 hb
  rw [lt_iff hx hy, key_lt_iff, map_toNat_components, map_toNat_components, generators_of_entry hx,
    generators_of_entry hy, count_of_entry hx, count_of_entry hy, degreeOf_of_entry hx,
    degreeOf_of_entry hy]

/-- Adding the same name to two others keeps their order. -/
theorem add_lt_add_iff {x y : Name} (hx : t.add a c = .ok (some x))
    (hy : t.add b c = .ok (some y)) : a < b ↔ x < y := by
  obtain ⟨hcx, hxcount⟩ := count_of_add hx
  obtain ⟨hcy, hycount⟩ := count_of_add hy
  rw [lt_iff_count (contains_of_add hx).1 (contains_of_add hy).1, lt_iff_count hcx hcy,
    ← degreeOf_add hxcount, ← degreeOf_add hycount, ← hxcount, ← hycount, map_add_lt_iff,
    Nat.add_lt_add_iff_right, Nat.add_right_cancel_iff]

/-! ## All names of a table -/

/-- The names of a table under addition, which has a result as long as the target leaves room and then
adds multiplicities without bound: a commutative monoid as far as there are sums, with cancellation,
with subtraction as the inverse, and with degrees and the order of names as they should be. -/
structure IsPartialMonoid (t : Table) : Prop where
  add : ∀ a b, t.contains a = true → t.contains b = true → (∃ s, t.add a b = .ok s) ∧
    ((∃ c, t.add a b = .ok (some c)) ↔ t.count a + t.count b ≤ t.target.count) ∧
    ∀ c, t.add a b = .ok (some c) ↔ t.contains c = true ∧ t.count a + t.count b = t.count c
  subtract : ∀ a b, t.contains a = true → t.contains b = true → (∃ s, t.subtract a b = .ok s) ∧
    ((∃ c, t.subtract a b = .ok (some c)) ↔ t.le b a = .ok true)
  inverse : ∀ a b c, t.contains a = true → t.contains b = true → t.contains c = true →
    (t.subtract a b = .ok (some c) ↔ t.add b c = .ok (some a))
  symm : ∀ a b, t.contains a = true → t.contains b = true → t.add a b = t.add b a
  assoc : ∀ a b c, t.contains a = true → t.contains b = true → t.contains c = true →
    (t.add a b >>= fun s => t.addPartial s (some c)) =
      t.add b c >>= fun s => t.addPartial (some a) s
  zero : ∀ a, t.contains a = true → t.add a 0 = .ok (some a)
  cancel : ∀ a b c d, t.add a b = .ok (some d) → t.add a c = .ok (some d) → b = c
  degree_add : ∀ a b c, t.add a b = .ok (some c) →
    ∃ d e, t.degree a = .ok d ∧ t.degree b = .ok e ∧ t.degree c = .ok (d + e)
  degree_subtract : ∀ a b c, t.subtract a b = .ok (some c) →
    ∃ d e, t.degree a = .ok d ∧ t.degree b = .ok e ∧ e ≤ d ∧ t.degree c = .ok (d - e)
  order : ∀ a b c x y, t.add a c = .ok (some x) → t.add b c = .ok (some y) → (a < b ↔ x < y)

theorem isPartialMonoid (t : Table) : t.IsPartialMonoid where
  add _ _ ha hb := ⟨add_eq_ok ha hb, exists_add_iff ha hb, fun _ => add_eq_some_iff ha hb⟩
  subtract _ _ ha hb := ⟨subtract_eq_ok ha hb, exists_subtract_iff ha hb⟩
  inverse _ _ _ := subtract_eq_some_iff_add
  symm _ _ := add_symm
  assoc _ _ _ := add_assoc_eq
  zero _ := add_zero_eq
  cancel _ _ _ _ := add_cancel
  degree_add _ _ _ := degree_of_add
  degree_subtract _ _ _ := degree_of_subtract
  order _ _ _ _ _ := add_lt_add_iff

end Table

end Nonassoc.Multidegree
