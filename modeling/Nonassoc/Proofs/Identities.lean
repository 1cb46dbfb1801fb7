import Mathlib.Data.Char
import Mathlib.Data.List.GetD
import Mathlib.Data.List.Nodup
import Nonassoc.Identity
import Nonassoc.Proofs.SortedLookup

/-!
# Numbered occurrences

In an identity, every term is a product in which each occurrence of each variable stands at exactly
one place (`Identity.IsNumbered`). `Identity.ofWords` makes no other ones (`isNumbered_of_ofWords`),
because it accepts only words with the same content, and numbers the letters of each from left to
right.
-/

namespace Nonassoc

/-! ## Content -/

namespace Content

theorem mem_of_mem_insert {c : Char} {x : Char × Nat} {k : Content} (h : x ∈ insert c k) :
    x.1 = c ∧ 0 < x.2 ∨ x ∈ k := by
  induction k with
  | nil =>
    rw [insert, List.mem_singleton] at h
    exact .inl (by simp [h])
  | cons d k ih =>
    simp only [insert] at h
    split at h
    · rcases List.mem_cons.1 h with h | h
      · exact .inl (by simp [h])
      · exact .inr h
    · split at h
      · rename_i heq
        rcases List.mem_cons.1 h with h | h
        · exact .inl (by simp [h, heq])
        · exact .inr (List.mem_cons_of_mem _ h)
      · rcases List.mem_cons.1 h with h | h
        · exact .inr (h ▸ List.mem_cons_self)
        · exact (ih h).imp_right (List.mem_cons_of_mem _)

/-- Counting a letter keeps the order and changes the number of that letter only. -/
theorem insert_spec (c : Char) {k : Content} (h : k.Pairwise fun x y => x.1 < y.1) :
    (insert c k).Pairwise (fun x y => x.1 < y.1) ∧
      ∀ d, ((insert c k).lookup d).getD 0 = (k.lookup d).getD 0 + if c = d then 1 else 0 := by
  induction k with
  | nil =>
    refine ⟨List.pairwise_singleton _ _, fun d => ?_⟩
    by_cases hd : d = c
    · simp [insert, hd]
    · have hb : (d == c) = false := by simpa using hd
      simp [insert, List.lookup_cons, hb, Ne.symm hd]
  | cons e k ih =>
    obtain ⟨e, n⟩ := e
    obtain ⟨he, hk⟩ := List.pairwise_cons.1 h
    simp only [insert]
    split
    · rename_i hlt
      have hall : ∀ x ∈ (e, n) :: k, c < x.1 :=
        List.forall_mem_cons.2 ⟨hlt, fun x hx => hlt.trans (he x hx)⟩
      refine ⟨List.pairwise_cons.2 ⟨hall, h⟩, fun d => ?_⟩
      by_cases hd : d = c
      · subst hd
        rw [lookup_eq_none_of_lt hall]
        simp
      · have hb : (d == c) = false := by simpa using hd
        rw [List.lookup_cons, hb, if_neg (Ne.symm hd), Nat.add_zero]
    · split
      · rename_i heq
        subst heq
        refine ⟨List.pairwise_cons.2 ⟨he, hk⟩, fun d => ?_⟩
        by_cases hd : d = c
        · simp [hd]
        · have hb : (d == c) = false := by simpa using hd
          simp [List.lookup_cons, hb, Ne.symm hd]
      · rename_i hlt hne
        have hec : e < c := lt_of_le_of_ne (not_lt.1 hlt) (Ne.symm hne)
        refine ⟨List.pairwise_cons.2 ⟨fun x hx => ?_, (ih hk).1⟩, fun d => ?_⟩
        · rcases mem_of_mem_insert hx with ⟨hx, -⟩ | hx
          · exact hx ▸ hec
          · exact he x hx
        · by_cases hd : d = e
          · simp [hd, hec.ne']
          · have hb : (d == e) = false := by simpa using hd
            rw [List.lookup_cons, List.lookup_cons, hb]
            exact (ih hk).2 d

end Content

namespace Word

theorem foldl_insert_spec (l : List Char) {k : Content} (h : k.Pairwise fun x y => x.1 < y.1)
    (hpos : ∀ x ∈ k, 0 < x.2) :
    (l.foldl (fun k c => k.insert c) k).Pairwise (fun x y => x.1 < y.1) ∧
      (∀ x ∈ l.foldl (fun k c => k.insert c) k, 0 < x.2) ∧
      ∀ d, ((l.foldl (fun k c => k.insert c) k).lookup d).getD 0 =
        (k.lookup d).getD 0 + l.count d := by
  induction l generalizing k with
  | nil => exact ⟨h, hpos, fun d => rfl⟩
  | cons c l ih =>
    obtain ⟨hs, hd⟩ := Content.insert_spec c h
    obtain ⟨hs', hpos', hd'⟩ := ih hs fun x hx =>
      (Content.mem_of_mem_insert hx).elim And.right (hpos x)
    refine ⟨hs', hpos', fun d => ?_⟩
    rw [List.foldl_cons, hd', hd, List.count_cons, Nat.add_assoc,
      Nat.add_comm (if c = d then _ else _)]
    simp only [beq_iff_eq]

theorem content_spec (w : Word) :
    w.content.Pairwise (fun x y => x.1 < y.1) ∧ (∀ x ∈ w.content, 0 < x.2) ∧
      ∀ c, (w.content.lookup c).getD 0 = w.letters.count c := by
  obtain ⟨hs, hpos, hcount⟩ := foldl_insert_spec w.letters .nil nofun
  refine ⟨hs, hpos, fun c => ?_⟩
  rw [content, hcount, List.lookup_nil, Option.getD_none, Nat.zero_add]

/-- The content of a word has every letter that occurs, with the number of its occurrences. -/
theorem mem_content_iff {w : Word} {c : Char} {n : Nat} :
    (c, n) ∈ w.content ↔ n = w.letters.count c ∧ 0 < n := by
  obtain ⟨hs, hpos, hcount⟩ := w.content_spec
  rw [← hcount c]
  refine ⟨fun h => ?_, fun hm => ?_⟩
  · exact ⟨by rw [lookup_of_mem hs h]; rfl, hpos _ h⟩
  · obtain ⟨rfl, hn⟩ := hm
    cases hl : w.content.lookup c with
    | none =>
      rw [hl] at hn
      exact absurd hn (Nat.lt_irrefl 0)
    | some m => exact mem_of_lookup hl

/-- The letters of a word are those of its content, each of which is there once. -/
theorem mem_letters_iff {w : Word} {c : Char} : c ∈ w.letters ↔ c ∈ w.content.map (·.1) := by
  rw [List.mem_map]
  refine ⟨fun h => ⟨_, mem_content_iff.2 ⟨rfl, List.count_pos_iff.2 h⟩, rfl⟩, ?_⟩
  rintro ⟨⟨c, n⟩, h, rfl⟩
  obtain ⟨rfl, hpos⟩ := mem_content_iff.1 h
  exact List.count_pos_iff.1 hpos

theorem nodup_letters_content (w : Word) : (w.content.map (·.1)).Nodup := by
  rw [List.nodup_iff_pairwise_ne, List.pairwise_map]
  exact w.content_spec.1.imp fun h => h.ne

/-- A content is sorted, so it is known by its members. -/
theorem content_eq_of_perm {w : Word} {k : Content} (h : w.content.Perm k)
    (hk : k.Pairwise fun x y => x.1 < y.1) : w.content = k :=
  h.eq_of_pairwise (fun _ _ _ _ h h' => absurd h h'.asymm) w.content_spec.1 hk

end Word

/-! ## Patterns -/

namespace Pattern

/-- The variables of the leaves from left to right, each with the number of its occurrence. -/
def leaves : Pattern → List (Nat × Nat)
  | leaf v k => [(v, k)]
  | product l r => l.leaves ++ r.leaves

/-- Each occurrence of each variable is the leaf of exactly one place. -/
structure IsNumbered (degrees : List Nat) (p : Pattern) : Prop where
  nodup : p.leaves.Nodup
  mem_iff : ∀ v k, (v, k) ∈ p.leaves ↔ k < degrees.getD v 0

theorem getD_modify {l : List Nat} {v : Nat} (hv : v < l.length) (u : Nat) :
    (l.modify v (· + 1)).getD u 0 = l.getD u 0 + if v = u then 1 else 0 := by
  rw [List.getD_eq_getElem?_getD, List.getD_eq_getElem?_getD, List.getElem?_modify]
  by_cases h : v = u
  · subst h
    simp [List.getElem?_eq_getElem hv]
  · simp [h]

/-- Before a word no variable has occurred. -/
theorem getD_zeros (letters : List Char) (v : Nat) : (letters.map fun _ => 0).getD v 0 = 0 := by
  rw [List.getD_eq_getElem?_getD, List.getElem?_map]
  cases letters[v]? <;> rfl

/-- The leaves of a word continue the numbers of the occurrences before it. -/
theorem numberFrom_spec {letters : List Char} {w : Word} (hw : ∀ c ∈ w.letters, c ∈ letters)
    {before : List Nat} (hb : before.length = letters.length) :
    (numberFrom letters w before).2.length = letters.length ∧
      (∀ v, (numberFrom letters w before).2.getD v 0 =
        before.getD v 0 + (w.letters.map letters.idxOf).count v) ∧
      (numberFrom letters w before).1.leaves.Nodup ∧
      ∀ v k, (v, k) ∈ (numberFrom letters w before).1.leaves ↔
        before.getD v 0 ≤ k ∧ k < (numberFrom letters w before).2.getD v 0 := by
  induction w generalizing before with
  | letter c =>
    have hv : letters.idxOf c < before.length :=
      hb ▸ List.idxOf_lt_length_iff.2 (hw c (by simp))
    refine ⟨by simp [numberFrom, hb], fun v => ?_, List.nodup_singleton _, fun v k => ?_⟩
    · simp only [numberFrom, getD_modify hv, Word.letters_letter, List.map_cons, List.map_nil,
        List.count_singleton, beq_iff_eq]
    · simp only [numberFrom, getD_modify hv, leaves, List.mem_singleton, Prod.mk.injEq]
      by_cases h : letters.idxOf c = v
      · subst h
        simp only [if_true, true_and]
        omega
      · simp only [if_neg h, Ne.symm h, false_and, false_iff]
        omega
  | product l r hl hr =>
    simp only [Word.letters_product, List.mem_append] at hw
    obtain ⟨hlen, hcount, hnodup, hmem⟩ := hl (fun c hc => hw c (.inl hc)) hb
    obtain ⟨hlen', hcount', hnodup', hmem'⟩ := hr (fun c hc => hw c (.inr hc)) hlen
    refine ⟨hlen', fun v => ?_, ?_, fun v k => ?_⟩
    · simp only [numberFrom, hcount', hcount, Word.letters_product, List.map_append,
        List.count_append, Nat.add_assoc]
    · refine List.nodup_append.2 ⟨hnodup, hnodup', ?_⟩
      rintro ⟨v, k⟩ hk _ hk' rfl
      exact absurd ((hmem v k).1 hk).2 (Nat.not_lt.2 ((hmem' v k).1 hk').1)
    · have hle := hcount v
      have hle' := hcount' v
      simp only [numberFrom, leaves, List.mem_append, hmem, hmem']
      omega

/-- How often a variable occurs in a word over its letters. -/
theorem count_map_idxOf {letters l : List Char} (hn : letters.Nodup) (hl : ∀ c ∈ l, c ∈ letters)
    (v : Nat) :
    (l.map letters.idxOf).count v = (letters[v]?.map l.count).getD 0 := by
  cases hv : letters[v]? with
  | none =>
    apply List.count_eq_zero.2
    intro h
    obtain ⟨c, hc, rfl⟩ := List.mem_map.1 h
    have hlt := List.idxOf_lt_length_iff.2 (hl c hc)
    exact absurd hlt (Nat.not_lt.2 (List.getElem?_eq_none_iff.1 hv))
  | some d =>
    obtain ⟨hlt, rfl⟩ := List.getElem?_eq_some_iff.1 hv
    rw [Option.map_some, Option.getD_some, List.count_eq_countP, List.countP_map,
      List.count_eq_countP]
    apply List.countP_congr
    intro c hc
    simp only [Function.comp_apply, beq_iff_eq]
    refine ⟨fun hm => ?_, fun hm => ?_⟩
    · obtain rfl := hm
      exact (List.getElem_idxOf _).symm
    · obtain rfl := hm
      exact hn.idxOf_getElem v hlt

/-- A word is numbered by the letters of its own content. -/
theorem isNumbered_ofWord (w : Word) :
    (ofWord (w.content.map (·.1)) w).IsNumbered (w.content.map (·.2)) := by
  have hletters : ∀ c ∈ w.letters, c ∈ w.content.map (·.1) := fun c => Word.mem_letters_iff.1
  have hlen : ((w.content.map (·.1)).map fun _ => 0).length = (w.content.map (·.1)).length :=
    List.length_map _
  obtain ⟨-, hcount, hleaves, hmem⟩ := numberFrom_spec hletters hlen
  refine ⟨hleaves, fun v k => ?_⟩
  have hdegree : ((w.content.map (·.1))[v]?.map w.letters.count).getD 0 =
      (w.content.map (·.2)).getD v 0 := by
    rw [List.getD_eq_getElem?_getD, List.getElem?_map, List.getElem?_map]
    cases hv : w.content[v]? with
    | none => rfl
    | some x => exact (Word.mem_content_iff.1 (List.mem_of_getElem? hv)).1.symm
  rw [ofWord, hmem, hcount, getD_zeros, Nat.zero_add, count_map_idxOf w.nodup_letters_content hletters,
    hdegree]
  exact and_iff_right (Nat.zero_le k)

end Pattern

/-! ## Identities -/

namespace Identity

/-- There is a variable, every variable occurs, and every term is a product with each occurrence at
one place. -/
structure IsNumbered (e : Identity) : Prop where
  degrees_ne_nil : e.degrees ≠ []
  degrees_pos : ∀ d ∈ e.degrees, 1 ≤ d
  numbered : ∀ t ∈ e.terms, t.pattern.IsNumbered e.degrees
  products : ∀ t ∈ e.terms, ∃ l r, t.pattern = .product l r

theorem offence?_eq_none_iff {content : Content} {term : Nat} {words : Combination} :
    offence? content term words = none ↔
      ∀ x ∈ words, 2 ≤ x.2.degree ∧ x.2.content = content := by
  induction words generalizing term with
  | nil => exact ⟨fun _ => nofun, fun _ => rfl⟩
  | cons x words ih =>
    obtain ⟨c, w⟩ := x
    rw [List.forall_mem_cons, ← @ih (term + 1), offence?]
    by_cases hdegree : w.degree < 2
    · simp [hdegree, Nat.not_le.2 hdegree]
    · by_cases hcontent : w.content = content
      · simp [hdegree, hcontent, Nat.not_lt.1 hdegree]
      · simp [hdegree, hcontent]

/-- The identity with the letters of a content and the given terms. -/
def ofContent (k : Content) (words : Combination) : Identity where
  letters := k.map (·.1)
  degrees := k.map (·.2)
  terms := words.map fun x => ⟨x.1, .ofWord (k.map (·.1)) x.2⟩

/-- Words make an identity if those with a nonzero coefficient, of which there is one, are products
with the same content. -/
theorem ofWords_eq_ok_iff {words : Combination} {e : Identity} :
    ofWords words = .ok e ↔
      ∃ x rest, words.filter (·.1 ≠ 0) = x :: rest ∧
        (∀ y ∈ x :: rest, 2 ≤ y.2.degree ∧ y.2.content = x.2.content) ∧
        e = .ofContent x.2.content (x :: rest) := by
  unfold ofWords
  split
  · rename_i hfilter
    refine ⟨nofun, ?_⟩
    rintro ⟨x, rest, hcons, -⟩
    cases hfilter.symm.trans hcons
  · rename_i c first rest hfilter
    rw [hfilter]
    dsimp only
    split
    · rename_i hoffence
      refine ⟨nofun, ?_⟩
      rintro ⟨x, rest, hcons, hwords, -⟩
      cases hcons
      cases hoffence.symm.trans (offence?_eq_none_iff.2 hwords)
    · rename_i hoffence
      refine ⟨fun h => ?_, ?_⟩
      · cases h
        exact ⟨_, _, rfl, offence?_eq_none_iff.1 hoffence, rfl⟩
      · rintro ⟨x, rest, hcons, -, rfl⟩
        cases hcons
        rfl

/-- Every letter of a term is a letter of the identity. -/
theorem mem_letters_of_ofWords {words : Combination} {e : Identity} (h : ofWords words = .ok e)
    {x : Int × Word} (hx : x ∈ words) (hne : x.1 ≠ 0) {c : Char} (hc : c ∈ x.2.letters) :
    c ∈ e.letters := by
  obtain ⟨first, rest, hfilter, hcontent, rfl⟩ := ofWords_eq_ok_iff.1 h
  have hmem : x ∈ first :: rest := hfilter ▸ List.mem_filter.2 ⟨hx, decide_eq_true hne⟩
  rw [Word.mem_letters_iff, (hcontent x hmem).2] at hc
  exact hc

theorem isNumbered_of_ofWords {words : Combination} {e : Identity} (h : ofWords words = .ok e) :
    e.IsNumbered := by
  obtain ⟨x, rest, -, hwords, rfl⟩ := ofWords_eq_ok_iff.1 h
  have hdegree := (hwords x List.mem_cons_self).1
  refine ⟨?_, fun d hd => ?_, fun t ht => ?_, fun t ht => ?_⟩
  · obtain ⟨c, hc⟩ : ∃ c, c ∈ x.2.letters := by
      apply List.exists_mem_of_length_pos
      rw [Word.length_letters]
      exact Nat.lt_of_lt_of_le Nat.two_pos hdegree
    refine List.ne_nil_of_mem (List.mem_map.2 ⟨(c, x.2.letters.count c), ?_, rfl⟩)
    exact Word.mem_content_iff.2 ⟨rfl, List.count_pos_iff.2 hc⟩
  · obtain ⟨⟨c, n⟩, hc, rfl⟩ := List.mem_map.1 hd
    exact (Word.mem_content_iff.1 hc).2
  · obtain ⟨y, hy, rfl⟩ := List.mem_map.1 ht
    rw [← (hwords y hy).2]
    exact Pattern.isNumbered_ofWord y.2
  · obtain ⟨⟨c, w⟩, hw, rfl⟩ := List.mem_map.1 ht
    cases w with
    | letter => exact absurd (hwords _ hw).1 (Nat.not_le.2 Nat.one_lt_two)
    | product l r => exact ⟨_, _, rfl⟩

end Identity

end Nonassoc
