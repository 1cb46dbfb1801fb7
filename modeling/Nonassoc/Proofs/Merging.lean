import Mathlib.Algebra.BigOperators.Group.List.Basic
import Mathlib.Algebra.Ring.Int.Defs
import Mathlib.Data.List.Induction
import Mathlib.Data.List.Nodup
import Nonassoc.Combination

/-!
# Merging like words

`Combination.coefficient p w` is the total of the coefficients that a combination gives to a word,
and `Combination.merged p` has each word once, where it first appears, with its total, if that is not
zero. `merge?` computes it exactly if every partial sum fits (`merge?_eq_some_iff`). While terms are
collected, the array holds the totals so far, and the map the place of each word in it (`Collects`).
-/

namespace Nonassoc

/-- The integers that a machine coefficient can be. -/
def Coefficient.Fits (x : Int) : Prop := minimum ≤ x ∧ x ≤ maximum

instance (x : Int) : Decidable (Coefficient.Fits x) := inferInstanceAs (Decidable (_ ∧ _))

theorem Coefficient.fit?_eq_ite (x : Int) : fit? x = if Fits x then some x else none := rfl

namespace Combination

open Coefficient (Fits)

variable {p q : Combination} {w : Word} {t : Int × Word}

/-! ## Coefficients that fit -/

theorem fit?_eq_some_iff : p.fit? = some q ↔ (∀ x ∈ p, Fits x.1) ∧ q = p := by
  induction p generalizing q with
  | nil => simp [fit?, eq_comm]
  | cons t p ih =>
    obtain ⟨c, w⟩ := t
    have hcons : fit? ((c, w) :: p) = (Coefficient.fit? c).bind fun c =>
        (fit? p).bind fun rest => some ((c, w) :: rest) := by
      simp only [fit?, List.mapM_cons]
      cases Coefficient.fit? c <;> rfl
    rw [hcons, Coefficient.fit?_eq_ite, List.forall_mem_cons]
    split
    · simp only [Option.bind_some, Option.bind_eq_some_iff, ih, Option.some_inj]
      constructor
      · rintro ⟨rest, ⟨hrest, rfl⟩, rfl⟩
        exact ⟨⟨‹_›, hrest⟩, rfl⟩
      · rintro ⟨⟨-, hrest⟩, rfl⟩
        exact ⟨p, ⟨hrest, rfl⟩, rfl⟩
    · simp [*]

/-! ## Totals -/

/-- The total of the coefficients of a word. -/
def coefficient (p : Combination) (w : Word) : Int :=
  (p.map fun x => if x.2 = w then x.1 else 0).sum

/-- The words that appear, each where it first does. -/
def words (p : Combination) : List Word := (p.map Prod.snd).eraseDups

/-- Each word with its total. -/
def collected (p : Combination) : Combination := p.words.map fun w => (p.coefficient w, w)

/-- Each word with its total, unless that is zero. -/
def merged (p : Combination) : Combination := p.collected.filter (·.1 ≠ 0)

@[simp] theorem coefficient_nil (w : Word) : coefficient [] w = 0 := rfl

@[simp] theorem coefficient_cons (t : Int × Word) (p : Combination) (w : Word) :
    coefficient (t :: p) w = (if t.2 = w then t.1 else 0) + p.coefficient w := by
  simp [coefficient]

@[simp] theorem coefficient_append (p q : Combination) (w : Word) :
    coefficient (p ++ q) w = p.coefficient w + q.coefficient w := by
  simp [coefficient]

theorem coefficient_of_notMem (h : ∀ x ∈ p, x.2 ≠ w) : p.coefficient w = 0 := by
  induction p with
  | nil => rfl
  | cons t p ih =>
    rw [List.forall_mem_cons] at h
    rw [coefficient_cons, if_neg h.1, ih h.2, Int.add_zero]

/-- A word that stands in one term only has the coefficient of that term. -/
theorem coefficient_of_mem (hp : (p.map Prod.snd).Nodup) (ht : t ∈ p) :
    p.coefficient t.2 = t.1 := by
  induction p with
  | nil => cases ht
  | cons u p ih =>
    rw [List.map_cons, List.nodup_cons, List.mem_map] at hp
    rw [coefficient_cons]
    rcases List.mem_cons.1 ht with rfl | ht
    · rw [if_pos rfl, coefficient_of_notMem fun x hx hxw => hp.1 ⟨x, hx, hxw⟩, Int.add_zero]
    · rw [if_neg fun h => hp.1 ⟨t, ht, h.symm⟩, ih hp.2 ht, Int.zero_add]

theorem mem_words : w ∈ p.words ↔ ∃ x ∈ p, x.2 = w := by
  rw [words, List.mem_eraseDups, List.mem_map]

theorem coefficient_of_notMem_words (h : w ∉ p.words) : p.coefficient w = 0 :=
  coefficient_of_notMem fun x hx hxw => h (mem_words.2 ⟨x, hx, hxw⟩)

theorem words_append_singleton (p : Combination) (t : Int × Word) :
    words (p ++ [t]) = if t.2 ∈ p.words then p.words else p.words ++ [t.2] := by
  simp only [words, List.map_append, List.map_singleton, List.eraseDups_append,
    List.mem_eraseDups, List.removeAll]
  by_cases h : t.2 ∈ p.map Prod.snd
  · simp [h]
  · simp [h, List.eraseDups_cons]

/-- The words stand in the order of their first appearance. -/
theorem pairwise_words (p : Combination) :
    p.words.Pairwise fun u v => (p.map Prod.snd).idxOf u < (p.map Prod.snd).idxOf v := by
  induction p using List.reverseRecOn with
  | nil => exact .nil
  | append_singleton p t ih =>
    have hmem {w : Word} (hw : w ∈ words p) : w ∈ p.map Prod.snd := List.mem_map.2 (mem_words.1 hw)
    have hkeep {w : Word} (hw : w ∈ words p) :
        ((p ++ [t]).map Prod.snd).idxOf w = (p.map Prod.snd).idxOf w := by
      rw [List.map_append, List.idxOf_append_of_mem (hmem hw)]
    have hp : (words p).Pairwise fun u v =>
        ((p ++ [t]).map Prod.snd).idxOf u < ((p ++ [t]).map Prod.snd).idxOf v :=
      ih.imp_of_mem fun hu hv hlt => by rwa [hkeep hu, hkeep hv]
    rw [words_append_singleton]
    split
    · exact hp
    · rename_i ht
      -- a new word first appears behind all others
      refine List.pairwise_append.2 ⟨hp, List.pairwise_singleton _ _, fun u hu v hv => ?_⟩
      rw [List.mem_singleton.1 hv, hkeep hu, List.map_append, List.idxOf_append_of_notMem
        fun h => ht (mem_words.2 (List.mem_map.1 h))]
      exact Nat.lt_add_right _ (List.idxOf_lt_length_of_mem (hmem hu))

theorem nodup_words (p : Combination) : p.words.Nodup :=
  p.pairwise_words.imp fun hlt heq => Nat.ne_of_lt hlt (congrArg (p.map Prod.snd).idxOf heq)

/-- A new word is collected behind all others. -/
theorem collected_append_of_notMem (ht : t.2 ∉ p.words) :
    collected (p ++ [t]) = p.collected ++ [t] := by
  rw [collected, collected, words_append_singleton, if_neg ht, List.map_append]
  refine congrArg₂ (· ++ ·) (List.map_congr_left fun w hw => ?_) ?_
  · have hne : t.2 ≠ w := fun heq => ht (heq ▸ hw)
    simp [hne]
  · simp [coefficient_of_notMem_words ht]

/-- A known word keeps its place, and its total alone changes. -/
theorem collected_append_of_mem (ht : t.2 ∈ p.words) :
    collected (p ++ [t]) = p.words.map fun w =>
      (if t.2 = w then coefficient (p ++ [t]) t.2 else p.coefficient w, w) := by
  rw [collected, words_append_singleton, if_pos ht]
  refine List.map_congr_left fun w _ => Prod.ext ?_ rfl
  by_cases hw : t.2 = w
  · rw [if_pos hw, hw]
  · simp [hw]

/-! ## What is merged -/

theorem mem_merged : t ∈ p.merged ↔ t.2 ∈ p.words ∧ t.1 = p.coefficient t.2 ∧ t.1 ≠ 0 := by
  simp only [merged, collected, List.mem_filter, List.mem_map, decide_eq_true_eq]
  constructor
  · rintro ⟨⟨w, hw, rfl⟩, hne⟩
    exact ⟨hw, rfl, hne⟩
  · rintro ⟨hw, hcoefficient, hne⟩
    exact ⟨⟨t.2, hw, Prod.ext hcoefficient.symm rfl⟩, hne⟩

theorem mem_merged_iff : t ∈ p.merged ↔ t.1 = p.coefficient t.2 ∧ t.1 ≠ 0 := by
  rw [mem_merged]
  refine ⟨And.right, fun h => ⟨?_, h⟩⟩
  by_contra hw
  exact h.2 (h.1.trans (coefficient_of_notMem_words hw))

theorem nodup_merged (p : Combination) : (p.merged.map Prod.snd).Nodup := by
  have hcollected : p.collected.map Prod.snd = p.words := by
    rw [collected, List.map_map]
    exact List.map_id p.words
  exact (hcollected ▸ p.nodup_words).sublist (List.filter_sublist.map _)

/-- Merging keeps the total of every word. -/
theorem coefficient_merged (p : Combination) (w : Word) :
    p.merged.coefficient w = p.coefficient w := by
  by_cases h : ∃ t ∈ p.merged, t.2 = w
  · obtain ⟨t, ht, rfl⟩ := h
    rw [coefficient_of_mem p.nodup_merged ht, (mem_merged.1 ht).2.1]
  · rw [coefficient_of_notMem fun t ht htw => h ⟨t, ht, htw⟩]
    by_cases hw : w ∈ p.words
    · by_contra hne
      exact h ⟨(p.coefficient w, w), mem_merged.2 ⟨hw, rfl, Ne.symm hne⟩, rfl⟩
    · exact (coefficient_of_notMem_words hw).symm

/-- There is nothing to merge where no word stands twice and no coefficient is zero. -/
theorem merged_eq_self (hp : (p.map Prod.snd).Nodup) (hne : ∀ x ∈ p, x.1 ≠ 0) :
    p.merged = p := by
  have hwords : p.words = p.map Prod.snd := by
    induction p using List.reverseRecOn with
    | nil => rfl
    | append_singleton p t ih =>
      rw [List.map_append, List.nodup_append] at hp
      rw [words_append_singleton, ih hp.1 fun x hx => hne x (List.mem_append_left _ hx), if_neg,
        List.map_append]
      · rfl
      · exact fun h => hp.2.2 t.2 h t.2 (List.mem_singleton_self _) rfl
  have hcollected : p.collected = p := by
    rw [collected, hwords, List.map_map]
    refine (List.map_congr_left fun t ht => ?_).trans (List.map_id p)
    exact Prod.ext (coefficient_of_mem hp ht) rfl
  rw [merged, hcollected, List.filter_eq_self]
  exact fun x hx => decide_eq_true (hne x hx)

/-! ## Partial sums -/

/-- Every partial sum of the coefficients of a word fits. -/
def SumsFit (p : Combination) : Prop :=
  ∀ q : Combination, q <+: p → ∀ w ∈ q.words, Fits (q.coefficient w)

theorem SumsFit.of_prefix (h : p.SumsFit) (hq : q <+: p) : q.SumsFit :=
  fun r hr => h r (hr.trans hq)

/-- A word that does not appear has the partial sum zero, which fits too. -/
theorem SumsFit.fits_coefficient (h : p.SumsFit) (hq : q <+: p) (w : Word) :
    Fits (q.coefficient w) := by
  by_cases hw : w ∈ q.words
  · exact h q hq w hw
  · rw [coefficient_of_notMem_words hw]
    decide

/-- One more term changes the total of its own word only. -/
theorem sumsFit_append_singleton :
    SumsFit (p ++ [t]) ↔ p.SumsFit ∧ Fits (coefficient (p ++ [t]) t.2) := by
  refine ⟨fun h => ⟨h.of_prefix (List.prefix_append _ _), ?_⟩, fun ⟨h, ht⟩ q hq w hw => ?_⟩
  · exact h _ (List.prefix_refl _) t.2 (mem_words.2 ⟨t, by simp, rfl⟩)
  · rcases List.prefix_concat_iff.1 hq with rfl | hq
    · by_cases hwt : t.2 = w
      · exact hwt ▸ ht
      · have hp : w ∈ p.words := by
          obtain ⟨x, hx, rfl⟩ := mem_words.1 hw
          rcases List.mem_append.1 hx with hx | hx
          · exact mem_words.2 ⟨x, hx, rfl⟩
          · exact absurd (congrArg Prod.snd (List.mem_singleton.1 hx)).symm hwt
        have := h p (List.prefix_refl _) w hp
        rwa [coefficient_append, coefficient_cons, if_neg hwt, coefficient_nil, Int.add_zero,
          Int.add_zero]
    · exact h q hq w hw

/-- What is collected: the totals so far, and the place of each word among them. -/
structure Collected.Collects (s : Collected) (p : Combination) : Prop where
  terms : s.terms.toList = p.collected
  place : ∀ (w : Word) (i : Nat), s.place[w]? = some i ↔ p.words[i]? = some w

namespace Collected

variable {s : Collected}

theorem collects_empty : Collects ⟨∅, #[]⟩ [] :=
  ⟨rfl, fun w i => by simp [words]⟩

theorem Collects.size (h : s.Collects p) : s.terms.size = p.words.length := by
  rw [← Array.length_toList, h.terms, collected, List.length_map]

theorem Collects.place_eq_none (h : s.Collects p) : s.place[w]? = none ↔ w ∉ p.words := by
  rw [List.mem_iff_getElem?, Option.eq_none_iff_forall_ne_some, not_exists]
  exact forall_congr' fun i => not_congr (h.place w i)

/-- A term with a new word is collected behind all others. -/
theorem Collects.add?_of_notMem (h : s.Collects p) (ht : t.2 ∉ p.words) :
    ∃ s', s.add? t = some s' ∧ s'.Collects (p ++ [t]) := by
  have hwords : words (p ++ [t]) = p.words ++ [t.2] := by rw [words_append_singleton, if_neg ht]
  refine ⟨_, by rw [add?, h.place_eq_none.2 ht], ?_, fun w i => ?_⟩
  · rw [Array.toList_push, h.terms, collected_append_of_notMem ht]
  · rw [Std.HashMap.getElem?_insert, h.size, hwords]
    by_cases hw : t.2 = w
    · subst hw
      have hi : ∀ i : Nat, p.words[i]? ≠ some t.2 := fun i hi => ht (List.mem_of_getElem? hi)
      simp only [beq_self_eq_true, if_true, Option.some_inj, List.getElem?_append]
      split
      · rename_i hlt
        exact ⟨fun heq => absurd heq (by omega), fun heq => absurd heq (hi i)⟩
      · rw [List.getElem?_singleton]
        split <;> simp <;> omega
    · have hbeq : (t.2 == w) = false := by simpa using hw
      rw [hbeq, if_neg (by simp), h.place, List.getElem?_append]
      split
      · rfl
      · rename_i hle
        rw [List.getElem?_eq_none (Nat.not_lt.1 hle), List.getElem?_singleton]
        split <;> simp [hw]

/-- A term with a known word is added to the total of that word, which has to fit. -/
theorem Collects.add?_of_mem (h : s.Collects p) (ht : t.2 ∈ p.words) :
    if Fits (coefficient (p ++ [t]) t.2) then ∃ s', s.add? t = some s' ∧ s'.Collects (p ++ [t])
    else s.add? t = none := by
  obtain ⟨i, hi⟩ := List.mem_iff_getElem?.1 ht
  have hwords : words (p ++ [t]) = p.words := by rw [words_append_singleton, if_pos ht]
  have hterm : s.terms[i]? = some (p.coefficient t.2, t.2) := by
    rw [← Array.getElem?_toList, h.terms, collected, List.getElem?_map, hi]
    rfl
  have hadd : s.add? t = (Coefficient.fit? (coefficient (p ++ [t]) t.2)).bind fun c =>
      some { s with terms := s.terms.setIfInBounds i (c, t.2) } := by
    rw [add?, (h.place t.2 i).2 hi]
    simp only [hterm, Option.getD_some, coefficient_append, coefficient_cons, coefficient_nil,
      if_true, Int.add_zero]
    rfl
  rw [hadd, Coefficient.fit?_eq_ite]
  split
  · refine ⟨_, rfl, ?_, fun w j => by rw [hwords]; exact h.place w j⟩
    rw [Array.toList_setIfInBounds, h.terms, collected, collected_append_of_mem ht]
    refine List.ext_getElem? fun j => ?_
    rw [List.getElem?_set, List.getElem?_map, List.getElem?_map, List.length_map]
    by_cases hij : i = j
    · subst hij
      rw [if_pos rfl, hi, if_pos (List.getElem?_eq_some_iff.1 hi).1, Option.map_some, if_pos rfl]
    · rw [if_neg hij]
      cases hj : p.words[j]? with
      | none => rfl
      | some w =>
        have hne : t.2 ≠ w := by
          rintro rfl
          have hlt := (List.getElem?_eq_some_iff.1 hi).1
          exact hij ((List.getElem?_inj hlt p.nodup_words).1 (hi.trans hj.symm))
        rw [Option.map_some, Option.map_some, if_neg hne]
  · rfl

/-- Terms that fit are collected as long as all partial sums fit. -/
theorem foldlM_add? (hp : ∀ x ∈ p, Fits x.1) :
    (p.SumsFit → ∃ s, p.foldlM add? ⟨∅, #[]⟩ = some s ∧ s.Collects p) ∧
      (¬ p.SumsFit → p.foldlM add? ⟨∅, #[]⟩ = none) := by
  induction p using List.reverseRecOn with
  | nil =>
    refine ⟨fun _ => ⟨_, rfl, collects_empty⟩, fun h => absurd (fun q hq w hw => ?_) h⟩
    rw [List.prefix_nil.1 hq] at hw
    cases hw
  | append_singleton p t ih =>
    obtain ⟨hsome, hnone⟩ := ih fun x hx => hp x (List.mem_append_left _ hx)
    rw [List.foldlM_append, sumsFit_append_singleton]
    by_cases hfits : SumsFit p
    · obtain ⟨s, hs, hcollects⟩ := hsome hfits
      rw [hs, and_iff_right hfits]
      simp only [Option.bind_eq_bind, Option.bind_some, List.foldlM_cons, List.foldlM_nil,
        Option.pure_def, Option.bind_fun_some]
      by_cases ht : t.2 ∈ words p
      · have hadd := hcollects.add?_of_mem ht
        split at hadd
        · exact ⟨fun _ => hadd, fun h => absurd ‹_› h⟩
        · exact ⟨fun h => absurd h ‹_›, fun _ => hadd⟩
      · refine ⟨fun _ => hcollects.add?_of_notMem ht, fun h => absurd ?_ h⟩
        rw [coefficient_append, coefficient_of_notMem_words ht, Int.zero_add, coefficient_cons,
          if_pos rfl, coefficient_nil, Int.add_zero]
        exact hp t (List.mem_append_right _ (List.mem_singleton_self t))
    · rw [hnone hfits]
      exact ⟨fun h => absurd h.1 hfits, fun _ => rfl⟩

end Collected

/-- Merging terms that fit succeeds exactly if all partial sums fit, and then gives each word its
total. -/
theorem merge?_eq_some_iff (hp : ∀ x ∈ p, Fits x.1) :
    merge? p = some q ↔ p.SumsFit ∧ q = p.merged := by
  obtain ⟨hsome, hnone⟩ := Collected.foldlM_add? hp
  rw [merge?]
  by_cases hfits : SumsFit p
  · obtain ⟨s, hs, hcollects⟩ := hsome hfits
    rw [hs, and_iff_right hfits]
    simp only [Option.bind_eq_bind, Option.bind_some, Option.pure_def, Option.some_inj,
      hcollects.terms]
    exact ⟨fun h => h.symm, fun h => h.symm⟩
  · rw [hnone hfits]
    simp [hfits]

theorem merge?_eq_none_iff (hp : ∀ x ∈ p, Fits x.1) : merge? p = none ↔ ¬ p.SumsFit := by
  rw [Option.eq_none_iff_forall_ne_some]
  exact ⟨fun h hsums => h _ ((merge?_eq_some_iff hp).2 ⟨hsums, rfl⟩),
    fun h q hq => h ((merge?_eq_some_iff hp).1 hq).1⟩

/-- All totals of what was merged fit. -/
theorem SumsFit.fits (h : p.SumsFit) : ∀ x ∈ p.merged, Fits x.1 := by
  intro x hx
  rw [(mem_merged_iff.1 hx).1]
  exact h.fits_coefficient (List.prefix_refl _) x.2

/-- Merging where no word stands twice and no coefficient is zero. -/
theorem merge?_eq_self (hp : (p.map Prod.snd).Nodup) (hne : ∀ x ∈ p, x.1 ≠ 0)
    (hfits : ∀ x ∈ p, Fits x.1) : merge? p = some p := by
  refine (merge?_eq_some_iff hfits).2 ⟨fun q hq w hw => ?_, (merged_eq_self hp hne).symm⟩
  obtain ⟨x, hx, rfl⟩ := mem_words.1 hw
  rw [coefficient_of_mem (hp.sublist (hq.sublist.map _)) hx]
  exact hfits x (hq.subset hx)

end Combination

end Nonassoc
