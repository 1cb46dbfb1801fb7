import Mathlib.Data.Set.Function
import Nonassoc.Proofs.Reorderings

/-!
# Other letters

The variables of an identity are numbered in letter order, so other letters number them in another
order (`ofWords_rename`). A run for the identity with other letters finds the same equations, up to
their order and the order of their pairs, and the very same if the new letters are in the same order
(`generate_renamed`).
-/

namespace Nonassoc

open Multidegree (Name)

/-! ## Content -/

namespace Word

/-- The word with other letters. -/
def rename (ρ : Char → Char) : Word → Word
  | letter c => letter (ρ c)
  | product l r => product (l.rename ρ) (r.rename ρ)

variable {ρ : Char → Char}

theorem letters_rename (w : Word) : (w.rename ρ).letters = w.letters.map ρ := by
  induction w with
  | letter c => rfl
  | product l r hl hr =>
    rw [rename, letters_product, letters_product, List.map_append, hl, hr]

theorem degree_rename (w : Word) : (w.rename ρ).degree = w.degree := by
  rw [← length_letters, ← length_letters, letters_rename, List.length_map]

section
variable {w : Word} (hρ : Set.InjOn ρ {c | c ∈ w.letters})
include hρ

theorem count_rename {c : Char} (hc : c ∈ w.letters) :
    (w.rename ρ).letters.count (ρ c) = w.letters.count c := by
  rw [letters_rename, List.count_eq_countP, List.countP_map, List.count_eq_countP]
  refine List.countP_congr fun d hd => ?_
  rw [Function.comp_apply, beq_iff_eq, beq_iff_eq]
  exact hρ.eq_iff hd hc

/-- The new letters occur as often as the old ones. -/
theorem content_rename_perm :
    (w.rename ρ).content.Perm (w.content.map fun x => (ρ x.1, x.2)) := by
  have hkeys : ((w.content.map fun x => (ρ x.1, x.2)).map (·.1)).Nodup := by
    have h := w.nodup_letters_content.map_on (f := ρ) fun c hc d hd =>
      hρ (mem_letters_iff.2 hc) (mem_letters_iff.2 hd)
    rwa [List.map_map] at h ⊢
  refine (List.perm_ext_iff_of_nodup (w.rename ρ).nodup_letters_content.of_map hkeys.of_map).2 ?_
  rintro ⟨d, n⟩
  rw [mem_content_iff, List.mem_map]
  constructor
  · rintro ⟨rfl, hpos⟩
    have hd := List.count_pos_iff.1 hpos
    rw [letters_rename] at hd
    obtain ⟨c, hc, rfl⟩ := List.mem_map.1 hd
    rw [count_rename hρ hc] at hpos ⊢
    exact ⟨(c, _), mem_content_iff.2 ⟨rfl, hpos⟩, rfl⟩
  · rintro ⟨⟨c, m⟩, hc, heq⟩
    obtain ⟨rfl, rfl⟩ := Prod.mk.inj heq
    obtain ⟨rfl, hpos⟩ := mem_content_iff.1 hc
    exact ⟨(count_rename hρ (List.count_pos_iff.1 hpos)).symm, hpos⟩

end

end Word

/-! ## Numbers of the variables -/

namespace Pattern

variable {ρ : Char → Char} {letters : List Char} (hn : letters.Nodup)
  (hρ : Set.InjOn ρ {c | c ∈ letters}) {order : List Nat}
  (ho : order.Perm (List.range letters.length))
include hn hρ ho

/-- A letter's variable has gone where the letter has. -/
theorem idxOf_rename {c : Char} (hc : c ∈ letters) :
    (permute order (letters.map ρ)).idxOf (ρ c) = order.idxOf (letters.idxOf c) := by
  have hlt := List.idxOf_lt_length_iff.2 hc
  have hlt' : letters.idxOf c < (letters.map ρ).length := by simpa using hlt
  have hnodup : (letters.map ρ).Nodup := hn.map_on fun c hc d hd => hρ hc hd
  have hidx := hnodup.idxOf_getElem _ hlt'
  rw [List.getElem_map, List.getElem_idxOf hlt] at hidx
  rw [idxOf_permute ho (List.length_map _) hnodup (List.mem_map_of_mem hc), hidx]

theorem numberFrom_rename {w : Word} (hw : ∀ c ∈ w.letters, c ∈ letters) {before : List Nat}
    (hb : before.length = letters.length) :
    numberFrom (permute order (letters.map ρ)) (w.rename ρ) (permute order before) =
      ((numberFrom letters w before).1.rename order.idxOf,
        permute order (numberFrom letters w before).2) := by
  induction w generalizing before with
  | letter c =>
    have hc := hw c (by simp)
    have hv := List.idxOf_lt_length_iff.2 hc
    simp only [Word.rename, numberFrom, rename, idxOf_rename hn hρ ho hc,
      List.getD_eq_getElem?_getD, getElem?_permute ho hb, modify_permute ho hb hv]
  | product l r hl hr =>
    simp only [Word.letters_product, List.mem_append] at hw
    have hl' := fun c hc => hw c (.inl hc)
    simp only [Word.rename, numberFrom, rename, hl hl' hb,
      hr (fun c hc => hw c (.inr hc)) (numberFrom_spec hl' hb).1]

theorem ofWord_rename {w : Word} (hw : ∀ c ∈ w.letters, c ∈ letters) :
    ofWord (permute order (letters.map ρ)) (w.rename ρ) =
      (ofWord letters w).rename order.idxOf := by
  have hb : (letters.map fun _ => 0).length = letters.length := List.length_map _
  have h := numberFrom_rename hn hρ ho hw hb
  rw [ofWord, ofWord, ← permute_map, List.map_map]
  exact congrArg Prod.fst h

end Pattern

/-! ## Identities -/

/-- The words with other letters. -/
def Combination.rename (ρ : Char → Char) (words : Combination) : Combination :=
  words.map fun x => (x.1, x.2.rename ρ)

namespace Identity

variable {words : Combination} {e : Identity} {ρ : Char → Char}

theorem isReordered_ofContent {k : Content} (hk : (k.map (·.1)).Nodup)
    (hρ : Set.InjOn ρ {c | c ∈ k.map (·.1)}) {order : List Nat}
    (ho : order.Perm (List.range k.length))
    (hw : ∀ x ∈ words, ∀ c ∈ x.2.letters, c ∈ k.map (·.1)) :
    (ofContent k words).IsReordered order
      (ofContent (permute order (k.map fun z => (ρ z.1, z.2))) (words.rename ρ)) where
  perm := by rwa [ofContent, List.length_map]
  degrees := by
    have hdegrees : (permute order (k.map fun z => (ρ z.1, z.2))).map (·.2) =
        permute order (k.map (·.2)) := by
      rw [← permute_map, List.map_map]
      rfl
    exact hdegrees
  terms := by
    have hletters : (permute order (k.map fun z => (ρ z.1, z.2))).map (·.1) =
        permute order ((k.map (·.1)).map ρ) := by
      rw [← permute_map, List.map_map, List.map_map]
      rfl
    rw [ofContent, ofContent, Combination.rename, List.map_map, List.map_map, hletters]
    refine List.map_congr_left fun x hx => ?_
    rw [Function.comp_apply, Pattern.ofWord_rename hk hρ (by rwa [List.length_map]) (hw x hx)]
    rfl

/-- Words with other letters make the same identity with its variables in another order, in the same
order if the letters are. -/
theorem ofWords_rename (he : ofWords words = .ok e) (hρ : Set.InjOn ρ {c | c ∈ e.letters}) :
    ∃ e', ofWords (words.rename ρ) = .ok e' ∧ (∃ order, e.IsReordered order e') ∧
      (StrictMonoOn ρ {c | c ∈ e.letters} → e.IsReordered (List.range e.degrees.length) e') := by
  obtain ⟨x, rest, hfilter, hwords, rfl⟩ := ofWords_eq_ok_iff.1 he
  have hletters : ∀ y ∈ x :: rest, ∀ c ∈ y.2.letters, c ∈ x.2.content.map (·.1) :=
    fun y hy c => (hwords y hy).2 ▸ Word.mem_letters_iff.1
  have hperm : ∀ y ∈ x :: rest,
      (y.2.rename ρ).content.Perm (x.2.content.map fun z => (ρ z.1, z.2)) := fun y hy =>
    (hwords y hy).2 ▸ Word.content_rename_perm (hρ.mono (hletters y hy))
  have hperm' := hperm x List.mem_cons_self
  -- contents are sorted, so the words that had the same one still have
  have hcontent : ∀ y ∈ x :: rest, (y.2.rename ρ).content = (x.2.rename ρ).content := fun y hy =>
    Word.content_eq_of_perm ((hperm y hy).trans hperm'.symm) (x.2.rename ρ).content_spec.1
  have hreordered : ∀ order, order.Perm (List.range x.2.content.length) →
      (x.2.rename ρ).content = permute order (x.2.content.map fun z => (ρ z.1, z.2)) →
      (ofContent x.2.content (x :: rest)).IsReordered order
        (ofContent (x.2.rename ρ).content (Combination.rename ρ (x :: rest))) :=
    fun order ho heq => heq ▸ isReordered_ofContent x.2.nodup_letters_content hρ ho hletters
  refine ⟨_, ofWords_eq_ok_iff.2 ⟨(x.1, x.2.rename ρ), Combination.rename ρ rest, ?_, ?_, rfl⟩,
    ?_, fun hmono => ?_⟩
  · rw [Combination.rename, List.filter_map]
    exact congrArg (Combination.rename ρ) hfilter
  · intro z hz
    obtain ⟨y, hy, rfl⟩ : ∃ y ∈ x :: rest, (y.1, y.2.rename ρ) = z := List.mem_map.1 hz
    exact ⟨Word.degree_rename y.2 ▸ (hwords y hy).1, hcontent y hy⟩
  · have hnodup := hperm'.nodup_iff.1 (x.2.rename ρ).nodup_letters_content.of_map
    obtain ⟨order, ho, heq⟩ := exists_permute_of_perm hnodup hperm'
    rw [List.length_map] at ho
    exact ⟨order, hreordered order ho heq⟩
  · -- new letters in the same order leave the content sorted as it stands
    have hsorted : (x.2.content.map fun z => (ρ z.1, z.2)).Pairwise fun y z => y.1 < z.1 := by
      refine List.pairwise_map.2 (x.2.content_spec.1.imp_of_mem fun hy hz hlt => ?_)
      exact hmono (List.mem_map_of_mem hy) (List.mem_map_of_mem hz) hlt
    have heq := Word.content_eq_of_perm hperm' hsorted
    have hrange := permute_range (x.2.content.map fun z => (ρ z.1, z.2))
    rw [List.length_map] at hrange
    simp only [ofContent, List.length_map]
    exact hreordered _ (List.Perm.refl _) (heq.trans hrange.symm)

theorem IsReordered.eq_of_range {e' : Identity} (he : e.IsNumbered)
    (h : e.IsReordered (List.range e.degrees.length) e') :
    e'.degrees = e.degrees ∧ e'.terms = e.terms := by
  refine ⟨h.degrees.trans (permute_range e.degrees), h.terms.trans ?_⟩
  refine (List.map_congr_left fun t ht => ?_).trans (List.map_id _)
  have hself : ∀ x ∈ t.pattern.leaves, (List.range e.degrees.length).idxOf x.1 = x.1 := by
    intro x hx
    have hlt := lt_length_of_lt_getD (((he.numbered t ht).mem_iff x.1 x.2).1 hx)
    have hidx := List.nodup_range.idxOf_getElem x.1 (by rwa [List.length_range])
    rwa [List.getElem_range] at hidx
  rw [Term.rename, Pattern.rename_eq_self hself]
  rfl

end Identity

/-! ## Runs -/

/-- A run reads only the degrees and the terms of its identity. -/
theorem generate_congr {e e' : Identity} (hd : e'.degrees = e.degrees) (ht : e'.terms = e.terms)
    (target : Name) (a : PartialAlgebra) (config : Config) (t : Token) :
    generate e' target a config t = generate e target a config t := by
  obtain ⟨letters, degrees, terms⟩ := e
  obtain ⟨letters', degrees', terms'⟩ := e'
  obtain rfl : degrees' = degrees := hd
  obtain rfl : terms' = terms := ht
  unfold generate Linearization.ofIdentity
  cases matchingCount degrees' <;> rfl

/-- Other letters change nothing but the order of the equations and of their pairs, and nothing at
all if they are in the same order. It is enough that the letters of the identity, which are those of
the words with a nonzero coefficient, stay different. -/
theorem generate_renamed {words : Combination} {e : Identity} (he : Identity.ofWords words = .ok e)
    {ρ : Char → Char} (hρ : Set.InjOn ρ {c | c ∈ e.letters}) :
    ∃ e', Identity.ofWords (words.rename ρ) = .ok e' ∧
      ∀ (target : Name) (a : PartialAlgebra) (config : Config),
        ((∃ f, (generate e' target a config .unlimited).1.status = .failed f) ↔
          ∃ f, (generate e target a config .unlimited).1.status = .failed f) ∧
        ((∀ f, (generate e target a config .unlimited).1.status ≠ .failed f) →
          (generate e' target a config .unlimited).1.status =
              (generate e target a config .unlimited).1.status ∧
            (generate e' target a config .unlimited).1.stats =
              (generate e target a config .unlimited).1.stats ∧
            SameEquations (generate e target a config .unlimited).1.equations
              (generate e' target a config .unlimited).1.equations) ∧
        (StrictMonoOn ρ {c | c ∈ e.letters} →
          ∀ t, generate e' target a config t = generate e target a config t) := by
  have hnumbered := Identity.isNumbered_of_ofWords he
  obtain ⟨e', he', ⟨order, horder⟩, hrange⟩ := Identity.ofWords_rename he hρ
  refine ⟨e', he', fun target a config => ⟨?_, fun hfail => ?_, fun hmono t => ?_⟩⟩
  · have h : (generate e' target a config .unlimited).1.status.IsFinished ↔
        (generate e target a config .unlimited).1.status.IsFinished :=
      isFinished_reordered horder hnumbered.degrees_ne_nil
    rw [isFinished_iff, isFinished_iff] at h
    simpa using not_congr h
  · exact generate_reordered horder hnumbered.degrees_ne_nil (isFinished_iff.2 hfail)
  · obtain ⟨hd, ht⟩ := (hrange hmono).eq_of_range hnumbered
    exact generate_congr hd ht target a config t

/-- A product of two letters, with new letters in the other order and in the same order. -/
theorem generate_renamed_product :
    ∃ (a : PartialAlgebra) (e reversed ordered : Identity),
      Identity.ofWords [(1, .product (.letter 'x') (.letter 'y'))] = .ok e ∧
      Identity.ofWords [(1, .product (.letter 'z') (.letter 'y'))] = .ok reversed ∧
      reversed.terms = [⟨1, .product (.leaf 1 0) (.leaf 0 0)⟩] ∧
      Identity.ofWords [(1, .product (.letter 'a') (.letter 'b'))] = .ok ordered ∧
      (∀ f, (generate e 3 a .standard .unlimited).1.status ≠ .failed f) ∧
      (generate reversed 3 a .standard .unlimited).1.status =
        (generate e 3 a .standard .unlimited).1.status ∧
      SameEquations (generate e 3 a .standard .unlimited).1.equations
        (generate reversed 3 a .standard .unlimited).1.equations ∧
      generate ordered 3 a .standard .unlimited = generate e 3 a .standard .unlimited := by
  obtain ⟨t, -, hc⟩ : ∃ t, Multidegree.Table.ofTarget ⟨[1, 1]⟩ = .ok t ∧ t.contains 3 = true :=
    ⟨_, rfl, by decide⟩
  let a : PartialAlgebra := ⟨.standard, t, ((Basis.empty t).pushAllGenerators t).2, .empty⟩
  let words : Combination := [(1, .product (.letter 'x') (.letter 'y'))]
  let e : Identity := ⟨['x', 'y'], [1, 1], [⟨1, .product (.leaf 0 0) (.leaf 1 0)⟩]⟩
  have he : Identity.ofWords words = .ok e := rfl
  let backwards : Char → Char := fun c => if c = 'x' then 'z' else 'y'
  let forwards : Char → Char := fun c => if c = 'x' then 'a' else 'b'
  have hletters : ∀ c ∈ e.letters, c = 'x' ∨ c = 'y' := by simp [e]
  have hbackwards : Set.InjOn backwards {c | c ∈ e.letters} := by
    intro c hc d hd
    rcases hletters c hc with rfl | rfl <;> rcases hletters d hd with rfl | rfl <;> decide
  have hforwards : StrictMonoOn forwards {c | c ∈ e.letters} := by
    intro c hc d hd
    rcases hletters c hc with rfl | rfl <;> rcases hletters d hd with rfl | rfl <;> decide
  have hfail : ∀ f, (generate e 3 a .standard .unlimited).1.status ≠ .failed f :=
    status_ne_failed_of_leaves Basis.Built.empty.pushAllGenerators
      (Identity.isNumbered_of_ofWords he) hc (by decide)
      fun term hterm => ⟨0, 0, 1, 0, by rw [List.mem_singleton.1 hterm]⟩
  obtain ⟨reversed, hreversed, hsame⟩ := generate_renamed he hbackwards
  obtain ⟨ordered, hordered, heq⟩ := generate_renamed he hforwards.injOn
  have hterms : reversed.terms = [⟨1, .product (.leaf 1 0) (.leaf 0 0)⟩] := by
    cases hreversed
    rfl
  obtain ⟨hstatus, -, hequations⟩ := (hsame 3 a .standard).2.1 hfail
  exact ⟨a, e, reversed, ordered, he, hreversed, hterms, hordered, hfail, hstatus, hequations,
    (heq 3 a .standard).2.2 hforwards .unlimited⟩

end Nonassoc
