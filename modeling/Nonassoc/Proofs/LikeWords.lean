import Nonassoc.Proofs.Merging
import Nonassoc.Proofs.Parsing
import Nonassoc.Proofs.Results

/-!
# Like words

`Combination.mergeBySearch?` merges like words plainly: the like word of a term is searched from the
front of what was merged before (`absorb?`). `merge?` looks its place up in a map, and gives the same
result on every list (`merge?_eq_mergeBySearch?`), since both pass through the totals of the terms so
far (`Collected.Collects.absorb?`).

What comes out is said by `IsMerged`: which terms, and in which order. Whether anything comes out is
decided by the partial sums of the coefficients that a word has in the list, its `addends`
(`sumsFit_iff_addends`). Main result: `merge_exact`.
-/

namespace Nonassoc

namespace Combination

open Coefficient (Fits)
open Combination.Parser (Cursor fitted fitted_eq_ok fitted_eq_error)

variable {p q : Combination} {t : Int × Word} {w : Word}

/-! ## Search instead of a map -/

/-- Adds a term: to the first like word if there is one, at the end otherwise. -/
def absorb? : Combination → Int × Word → Option Combination
  | [], t => some [t]
  | u :: p, t =>
    if u.2 = t.2 then do
      let c ← Coefficient.fit? (u.1 + t.1)
      some ((c, u.2) :: p)
    else do
      let q ← absorb? p t
      some (u :: q)

/-- Each word once, where it first appears, with its total; words with total zero are dropped. Every
like word is found by a search. Fails if a partial sum does not fit. -/
def mergeBySearch? (p : Combination) : Option Combination := do
  let q ← p.foldlM absorb? []
  return q.filter (·.1 ≠ 0)

section Totals

variable (total : Word → Int) {ws : List Word}

theorem absorb?_totals_of_notMem (ht : t.2 ∉ ws) :
    absorb? (ws.map fun w => (total w, w)) t = some ((ws.map fun w => (total w, w)) ++ [t]) := by
  induction ws with
  | nil => rfl
  | cons w ws ih =>
    rw [List.mem_cons, not_or] at ht
    rw [List.map_cons, absorb?, if_neg (Ne.symm ht.1), ih ht.2]
    rfl

theorem absorb?_totals_of_mem (hws : ws.Nodup) (ht : t.2 ∈ ws) :
    absorb? (ws.map fun w => (total w, w)) t = (Coefficient.fit? (total t.2 + t.1)).bind fun c =>
      some (ws.map fun w => (if t.2 = w then c else total w, w)) := by
  induction ws with
  | nil => cases ht
  | cons w ws ih =>
    rw [List.nodup_cons] at hws
    rw [List.map_cons, absorb?]
    by_cases hw : w = t.2
    · subst hw
      have hrest (c : Int) : (ws.map fun w => (if t.2 = w then c else total w, w)) =
          ws.map fun w => (total w, w) :=
        List.map_congr_left fun w hw => by rw [if_neg (ne_of_mem_of_not_mem hw hws.1).symm]
      simp only [List.map_cons, hrest, if_true, Option.bind_eq_bind]
    · rw [if_neg hw, ih hws.2 (List.mem_of_ne_of_mem (Ne.symm hw) ht)]
      simp only [List.map_cons, if_neg (Ne.symm hw)]
      cases Coefficient.fit? (total t.2 + t.1) <;> rfl

end Totals

namespace Collected

variable {s : Collected}

/-- One step of either merging: both refuse the term, or both come to the totals that include it. -/
theorem Collects.absorb? (h : s.Collects p) (t : Int × Word) :
    s.add? t = none ∧ p.collected.absorb? t = none ∨
      ∃ s', s.add? t = some s' ∧ s'.Collects (p ++ [t]) ∧
        p.collected.absorb? t = some (collected (p ++ [t])) := by
  by_cases ht : t.2 ∈ p.words
  · have hadd := h.add?_of_mem ht
    have habsorb := absorb?_totals_of_mem p.coefficient p.nodup_words ht
    have htotal : coefficient (p ++ [t]) t.2 = p.coefficient t.2 + t.1 := by simp
    rw [← collected, Coefficient.fit?_eq_ite, ← htotal] at habsorb
    rw [habsorb]
    split at hadd
    · obtain ⟨s', hs', hcollects⟩ := hadd
      refine .inr ⟨s', hs', hcollects, ?_⟩
      rw [if_pos ‹_›, Option.bind_some, collected_append_of_mem ht]
    · exact .inl ⟨hadd, by rw [if_neg ‹_›, Option.bind_none]⟩
  · obtain ⟨s', hs', hcollects⟩ := h.add?_of_notMem ht
    refine .inr ⟨s', hs', hcollects, ?_⟩
    rw [collected_append_of_notMem ht]
    exact absorb?_totals_of_notMem p.coefficient ht

/-- From the same totals both go through any further terms alike. -/
theorem Collects.foldlM_absorb? (h : s.Collects p) (q : Combination) :
    (q.foldlM add? s).map (·.terms.toList) = q.foldlM Combination.absorb? p.collected := by
  induction q generalizing s p with
  | nil => exact congrArg some h.terms
  | cons t q ih =>
    rw [List.foldlM_cons, List.foldlM_cons]
    rcases h.absorb? t with ⟨hadd, habsorb⟩ | ⟨s', hadd, hcollects, habsorb⟩
    · rw [hadd, habsorb]
      rfl
    · rw [hadd, habsorb]
      exact ih hcollects

end Collected

/-- The map changes nothing but the search. -/
theorem merge?_eq_mergeBySearch? (p : Combination) : merge? p = mergeBySearch? p := by
  have hfold : (p.foldlM Collected.add? ⟨∅, #[]⟩).map (·.terms.toList) = p.foldlM absorb? [] :=
    Collected.collects_empty.foldlM_absorb? p
  rw [merge?, mergeBySearch?, ← hfold]
  cases p.foldlM Collected.add? ⟨∅, #[]⟩ <;> rfl

/-! ## Partial sums of one word -/

/-- The coefficients of a word, in order. -/
def addends (p : Combination) (w : Word) : List Int := (p.filter (·.2 = w)).map Prod.fst

theorem sum_addends (p : Combination) (w : Word) : (p.addends w).sum = p.coefficient w := by
  induction p with
  | nil => rfl
  | cons t p ih =>
    rw [coefficient_cons, ← ih, addends, List.filter_cons]
    by_cases hw : t.2 = w
    · simp [hw, addends]
    · simp [hw, addends]

/-- The first coefficients of a word are those that it has in the first terms. -/
theorem prefix_addends_iff {cs : List Int} :
    cs <+: p.addends w ↔ ∃ q : Combination, q <+: p ∧ q.addends w = cs := by
  simp only [addends, List.prefix_map_iff, List.prefix_filter_iff]
  constructor
  · rintro ⟨l, ⟨q, hq, rfl⟩, rfl⟩
    exact ⟨q, hq, rfl⟩
  · rintro ⟨q, hq, rfl⟩
    exact ⟨_, ⟨q, hq, rfl⟩, rfl⟩

theorem sumsFit_iff_addends :
    p.SumsFit ↔ ∀ w : Word, ∀ cs : List Int, cs <+: p.addends w → Fits cs.sum := by
  refine ⟨fun h w cs hcs => ?_, fun h q hq w _ => ?_⟩
  · obtain ⟨q, hq, rfl⟩ := prefix_addends_iff.1 hcs
    exact sum_addends q w ▸ h.fits_coefficient hq w
  · exact sum_addends q w ▸ h w _ (prefix_addends_iff.2 ⟨q, hq, rfl⟩)

/-! ## What comes out -/

/-- `q` has the words of `p` whose coefficients do not cancel, each with its total, in the order in
which they first appear in `p`; so each stands in it once. -/
structure IsMerged (p q : Combination) : Prop where
  mem : ∀ t : Int × Word, t ∈ q ↔ t.1 = p.coefficient t.2 ∧ t.1 ≠ 0
  order : q.Pairwise fun t u =>
    (p.map Prod.snd).idxOf t.2 < (p.map Prod.snd).idxOf u.2

theorem IsMerged.nodup (h : IsMerged p q) : (q.map Prod.snd).Nodup := by
  rw [List.Nodup, List.pairwise_map]
  exact h.order.imp fun hlt heq => Nat.ne_of_lt hlt (congrArg (p.map Prod.snd).idxOf heq)

/-- Only one list is the merged one. -/
theorem isMerged_iff : IsMerged p q ↔ q = p.merged := by
  have hcollected : p.collected.Pairwise fun t u =>
      (p.map Prod.snd).idxOf t.2 < (p.map Prod.snd).idxOf u.2 :=
    List.pairwise_map.2 p.pairwise_words
  have hmerged : IsMerged p p.merged := ⟨fun _ => mem_merged_iff, hcollected.filter _⟩
  refine ⟨fun h => ?_, fun h => h ▸ hmerged⟩
  refine List.Perm.eq_of_pairwise (fun t u _ _ htu hut => absurd htu (Nat.lt_asymm hut)) h.order
    hmerged.order ?_
  rw [List.perm_ext_iff_of_nodup h.nodup.of_map hmerged.nodup.of_map]
  exact fun t => (h.mem t).trans (hmerged.mem t).symm

/-- What was merged is not changed by merging it again. -/
theorem SumsFit.merge?_merged (h : p.SumsFit) : merge? p.merged = some p.merged :=
  merge?_eq_self p.nodup_merged (fun _ hx => (mem_merged.1 hx).2.2) h.fits

/-! ## Blocks -/

/-- Blocks of terms that fit are merged one by one. -/
theorem eq_map_merged_of_mapM {blocks normal : List Combination}
    (hfits : ∀ x ∈ blocks.flatten, Fits x.1) (h : blocks.mapM merge? = some normal) :
    normal = blocks.map merged ∧ ∀ x ∈ normal.flatten, Fits x.1 := by
  have hall := mapM_eq_some.1 h
  clear h
  induction hall with
  | nil => exact ⟨rfl, nofun⟩
  | @cons b m blocks normal hb _ ih =>
    rw [List.flatten_cons, List.forall_mem_append] at hfits
    obtain ⟨hsums, rfl⟩ := (merge?_eq_some_iff hfits.1).1 hb
    obtain ⟨rfl, hnormal⟩ := ih hfits.2
    exact ⟨rfl, List.forall_mem_append.2 ⟨hsums.fits, hnormal⟩⟩

theorem coefficient_flatten_merged (blocks : List Combination) (w : Word) :
    coefficient (blocks.map merged).flatten w = coefficient blocks.flatten w := by
  induction blocks with
  | nil => rfl
  | cons b blocks ih =>
    rw [List.map_cons, List.flatten_cons, List.flatten_cons, coefficient_append,
      coefficient_append, coefficient_merged, ih]

/-- A partial sum after merging the blocks is one before it, taken where a block ends. -/
theorem exists_prefix_of_prefix_flatten_merged {blocks : List Combination}
    (hq : q <+: (blocks.map merged).flatten) (w : Word) :
    ∃ r : Combination, r <+: blocks.flatten ∧ r.coefficient w = q.coefficient w := by
  induction blocks generalizing q with
  | nil => exact ⟨[], List.nil_prefix, by rw [List.prefix_nil.1 hq]⟩
  | cons b blocks ih =>
    obtain ⟨s, hs⟩ := hq
    rw [List.map_cons, List.flatten_cons] at hs
    rcases List.append_eq_append_iff.1 hs with ⟨a, hb, -⟩ | ⟨a, rfl, hrest⟩
    · -- the word has its total by then, or nothing yet
      have hnodup : (q.map Prod.snd).Nodup :=
        b.nodup_merged.sublist ((hb ▸ List.sublist_append_left q a).map _)
      by_cases hw : ∃ t ∈ q, t.2 = w
      · obtain ⟨t, ht, rfl⟩ := hw
        refine ⟨b, List.prefix_append _ _, ?_⟩
        rw [coefficient_of_mem hnodup ht, (mem_merged_iff.1 (hb ▸ List.mem_append_left a ht)).1]
      · refine ⟨[], List.nil_prefix, ?_⟩
        rw [coefficient_of_notMem fun t ht htw => hw ⟨t, ht, htw⟩, coefficient_nil]
    · obtain ⟨r, hr, hcoefficient⟩ := ih ⟨s, hrest.symm⟩
      refine ⟨b ++ r, (List.prefix_append_right_inj b).2 hr, ?_⟩
      rw [coefficient_append, coefficient_append, coefficient_merged, hcoefficient]

theorem SumsFit.flatten_merged {blocks : List Combination} (h : SumsFit blocks.flatten) :
    SumsFit (blocks.map merged).flatten := by
  intro q hq w _
  obtain ⟨r, hr, hcoefficient⟩ := exists_prefix_of_prefix_flatten_merged hq w
  exact hcoefficient ▸ h.fits_coefficient hr w

/-- Lists with the same totals have the same merged terms, up to their order. -/
theorem perm_merged (h : ∀ w, p.coefficient w = q.coefficient w) : p.merged.Perm q.merged := by
  rw [List.perm_ext_iff_of_nodup p.nodup_merged.of_map q.nodup_merged.of_map]
  intro t
  rw [mem_merged_iff, mem_merged_iff, h]

/-! ## Exactness -/

/-- Merging terms that fit is the merging by search. It is refused for an overflow exactly if the
first so many coefficients of some word, in the order of the list, have a sum that does not fit.
Otherwise it gives the words whose coefficients do not cancel, each once with its total, in the order
in which they first appear, and merging that again changes nothing. If the list is made of blocks
each of which can be merged, merging them first is not refused either, and gives the same totals:
only the order of the terms may differ. -/
theorem merge_exact (hp : ∀ x ∈ p, Fits x.1) :
    merge? p = mergeBySearch? p ∧
    (∀ c : Cursor, fitted c (merge? p) = .error (.overflow c.position) ↔
      ∃ w : Word, ∃ cs : List Int, cs <+: p.addends w ∧ ¬ Fits cs.sum) ∧
    ((∀ w : Word, ∀ cs : List Int, cs <+: p.addends w → Fits cs.sum) →
      ∃ q, (∀ c : Cursor, fitted c (merge? p) = .ok q) ∧ IsMerged p q ∧
        ∀ c : Cursor, fitted c (merge? q) = .ok q) ∧
    ∀ (blocks normal : List Combination) (q : Combination), blocks.flatten = p →
      blocks.mapM merge? = some normal → merge? p = some q →
      ∃ r, merge? normal.flatten = some r ∧ (∀ w, r.coefficient w = q.coefficient w) ∧
        r.Perm q := by
  refine ⟨merge?_eq_mergeBySearch? p, fun c => ?_, fun h => ?_, ?_⟩
  · rw [fitted_eq_error, merge?_eq_none_iff hp, sumsFit_iff_addends]
    simp only [not_forall, exists_prop]
  · have hsums := sumsFit_iff_addends.2 h
    have hmerge : merge? p = some p.merged := (merge?_eq_some_iff hp).2 ⟨hsums, rfl⟩
    exact ⟨p.merged, fun c => fitted_eq_ok.2 hmerge, isMerged_iff.2 rfl,
      fun c => fitted_eq_ok.2 hsums.merge?_merged⟩
  · rintro blocks normal q rfl hnormal hq
    obtain ⟨rfl, hfits⟩ := eq_map_merged_of_mapM hp hnormal
    obtain ⟨hsums, rfl⟩ := (merge?_eq_some_iff hp).1 hq
    have htotals := coefficient_flatten_merged blocks
    refine ⟨_, (merge?_eq_some_iff hfits).2 ⟨hsums.flatten_merged, rfl⟩, fun w => ?_,
      perm_merged htotals⟩
    rw [coefficient_merged, coefficient_merged, htotals]

/-- A word that cancels and comes back keeps its first place, unless the block in which it cancels is
merged first; and a word whose total fits is refused for the sum of its first two coefficients. -/
theorem merge_exact_returning :
    let x : Word := .letter 'x'
    let y : Word := .letter 'y'
    let blocks : List Combination := [[(1, x), (1, y), (-1, x)], [(1, x)]]
    let large : Combination := [(9223372036854775807, x), (1, x), (-1, x)]
    ((∀ t ∈ blocks.flatten, Fits t.1) ∧
      (∀ w : Word, ∀ cs : List Int, cs <+: addends blocks.flatten w → Fits cs.sum) ∧
      (∀ c : Cursor, fitted c (merge? blocks.flatten) = .ok [(1, x), (1, y)]) ∧
      IsMerged blocks.flatten [(1, x), (1, y)] ∧
      blocks.mapM merge? = some [[(1, y)], [(1, x)]] ∧
      merge? [(1, y), (1, x)] = some [(1, y), (1, x)] ∧
      ∀ w, coefficient [(1, y), (1, x)] w = coefficient [(1, x), (1, y)] w) ∧
    (∀ t ∈ large, Fits t.1) ∧ Fits (large.coefficient x) ∧
      ∀ c : Cursor, fitted c (merge? large) = .error (.overflow c.position) := by
  intro x y blocks large
  have hsearch : merge? = mergeBySearch? := funext merge?_eq_mergeBySearch?
  have hfits : ∀ t ∈ blocks.flatten, Fits t.1 := by decide
  have hmerge : merge? blocks.flatten = some [(1, x), (1, y)] := by rw [hsearch]; rfl
  have hnormal : blocks.mapM merge? = some [[(1, y)], [(1, x)]] := by rw [hsearch]; rfl
  obtain ⟨-, -, hreturns, hblocks⟩ := merge_exact hfits
  have hsums := sumsFit_iff_addends.1 ((merge?_eq_some_iff hfits).1 hmerge).1
  obtain ⟨q, hq, hmerged, -⟩ := hreturns hsums
  obtain rfl : [(1, x), (1, y)] = q := Option.some.inj
    (hmerge.symm.trans (fitted_eq_ok.1 (hq ⟨[], 0⟩)))
  obtain ⟨r, hr, htotals, -⟩ := hblocks blocks _ _ rfl hnormal hmerge
  obtain rfl : [(1, y), (1, x)] = r := Option.some.inj (Eq.trans (by rw [hsearch]; rfl) hr)
  refine ⟨⟨hfits, hsums, hq, hmerged, hnormal, hr, htotals⟩, ?_⟩
  have hlarge : ∀ t ∈ large, Fits t.1 := by decide
  refine ⟨hlarge, by decide, fun c => ((merge_exact hlarge).2.1 c).2 ?_⟩
  exact ⟨x, [9223372036854775807, 1], ⟨[-1], rfl⟩, by decide⟩

end Combination

end Nonassoc
