import Nonassoc.Proofs.WrittenForm

/-!
# Which words make an identity

Words make an identity exactly if they are homogeneous: there is one, each has at least two letters,
and all have the same letters, each equally often (`Combination.IsHomogeneous`). Otherwise the
reason is that there is none, or what is wrong with the first word that does not belong there
(`Combination.Refuses`). The identity loses nothing of its words (`Identity.Numbers`): they come
back if the leaves are replaced by their letters, and in every term the occurrences of a variable
are numbered from left to right.
-/

namespace Nonassoc

/-- Two words have the same content if they have the same letters, each equally often. -/
theorem Word.content_eq_iff {w w' : Word} : w.content = w'.content ↔ w.letters.Perm w'.letters := by
  refine ⟨fun h => List.perm_iff_count.2 fun c => ?_, fun h => ?_⟩
  · rw [← w.content_spec.2.2 c, h, w'.content_spec.2.2 c]
  · refine content_eq_of_perm ?_ w'.content_spec.1
    refine (List.perm_ext_iff_of_nodup w.nodup_letters_content.of_map
      w'.nodup_letters_content.of_map).2 ?_
    rintro ⟨c, n⟩
    rw [mem_content_iff, mem_content_iff, h.count_eq]

/-! ## Homogeneous words -/

namespace Combination

/-- There is a word, each has at least two letters, and all have the same letters, each equally
often. -/
structure IsHomogeneous (words : Combination) : Prop where
  ne_nil : words ≠ []
  degree : ∀ x ∈ words, 2 ≤ x.2.degree
  letters : ∀ x ∈ words, ∀ y ∈ words, x.2.letters.Perm y.2.letters

/-- The word belongs to an identity whose first word is `first`. -/
structure Belongs (first w : Word) : Prop where
  degree : 2 ≤ w.degree
  letters : w.letters.Perm first.letters

/-- What is wrong with a word, the term with the given number, that does not belong to an identity
whose first word is `first`. That it is too small is reported whatever its letters are. -/
inductive IsOffence (first : Word) (term : Nat) (w : Word) : IdentityError → Prop
  | degreeTooSmall : w.degree < 2 → IsOffence first term w (.degreeTooSmall term w.degree)
  | notHomogeneous :
    2 ≤ w.degree → ¬ w.letters.Perm first.letters → IsOffence first term w (.notHomogeneous term)

/-- Why words are no identity: there is none, or the first one that does not belong there. -/
inductive Refuses : Combination → IdentityError → Prop
  | empty : Refuses [] .empty
  | offence {words before after : Combination} {first x : Int × Word} {error : IdentityError} :
    words.head? = some first → words = before ++ x :: after → (∀ y ∈ before, Belongs first.2 y.2) →
      IsOffence first.2 before.length x.2 error → Refuses words error

end Combination

open Combination (IsHomogeneous Belongs IsOffence Refuses)

namespace Identity

/-- The first offence is that of the first word, or the first one behind it. -/
theorem offence?_cons_eq_some_iff {first : Word} {term : Nat} {x : Int × Word} {words : Combination}
    {error : IdentityError} :
    offence? first.content term (x :: words) = some error ↔
      IsOffence first term x.2 error ∨
        Belongs first x.2 ∧ offence? first.content (term + 1) words = some error := by
  obtain ⟨c, w⟩ := x
  simp only [offence?, ne_eq, Word.content_eq_iff]
  split
  · rename_i hdegree
    constructor
    · rintro ⟨⟩
      exact .inl (.degreeTooSmall hdegree)
    · rintro (herror | ⟨hw, -⟩)
      · cases herror with
        | degreeTooSmall => rfl
        | notHomogeneous hle => omega
      · exact absurd hw.degree (Nat.not_le.2 hdegree)
  · rename_i hdegree
    split
    · rename_i hletters
      constructor
      · rintro ⟨⟩
        exact .inl (.notHomogeneous (Nat.not_lt.1 hdegree) hletters)
      · rintro (herror | ⟨hw, -⟩)
        · cases herror with
          | degreeTooSmall hlt => exact absurd hlt hdegree
          | notHomogeneous => rfl
        · exact absurd hw.letters hletters
    · rename_i hletters
      refine ⟨fun h => .inr ⟨⟨Nat.not_lt.1 hdegree, not_not.1 hletters⟩, h⟩, ?_⟩
      rintro (herror | ⟨-, h⟩)
      · cases herror with
        | degreeTooSmall hlt => exact absurd hlt hdegree
        | notHomogeneous _ hne => exact absurd hne hletters
      · exact h

/-- An offence is that of a word with only such words before it as belong to the identity. -/
theorem offence?_eq_some_iff {first : Word} {term : Nat} {words : Combination}
    {error : IdentityError} :
    offence? first.content term words = some error ↔
      ∃ before x after, words = before ++ x :: after ∧ (∀ y ∈ before, Belongs first y.2) ∧
        IsOffence first (term + before.length) x.2 error := by
  induction words generalizing term with
  | nil => simp [offence?]
  | cons y words ih =>
    rw [offence?_cons_eq_some_iff, ih]
    constructor
    · rintro (herror | ⟨hy, before, x, after, rfl, hbefore, herror⟩)
      · exact ⟨[], y, words, rfl, List.forall_mem_nil _, herror⟩
      · refine ⟨y :: before, x, after, rfl, List.forall_mem_cons.2 ⟨hy, hbefore⟩, ?_⟩
        rwa [Nat.add_assoc, Nat.add_comm 1] at herror
    · rintro ⟨before, x, after, hwords, hbefore, herror⟩
      cases before with
      | nil =>
        cases hwords
        exact .inl herror
      | cons z before =>
        cases hwords
        rw [List.forall_mem_cons] at hbefore
        refine .inr ⟨hbefore.1, before, x, after, rfl, hbefore.2, ?_⟩
        rwa [Nat.add_assoc, Nat.add_comm 1]

/-- Words are refused if they are none, or if one of them does not belong to an identity that begins
with the first. -/
theorem ofWords_eq_error_iff {words : Combination} {error : IdentityError} :
    ofWords words = .error error ↔ Refuses (words.filter (·.1 ≠ 0)) error := by
  unfold ofWords
  split
  · rename_i hnil
    rw [hnil]
    constructor
    · rintro ⟨⟩
      exact .empty
    · rintro (- | ⟨hfirst, -, -, -⟩)
      · rfl
      · cases hfirst
  · rename_i c first rest hfilter
    rw [hfilter]
    have hrefuses : Refuses ((c, first) :: rest) error ↔
        offence? first.content 0 ((c, first) :: rest) = some error := by
      rw [offence?_eq_some_iff]
      constructor
      · rintro (- | ⟨hfirst, hwords, hbefore, herror⟩)
        cases hfirst
        exact ⟨_, _, _, hwords, hbefore, by rwa [Nat.zero_add]⟩
      · rintro ⟨before, x, after, hwords, hbefore, herror⟩
        rw [Nat.zero_add] at herror
        exact .offence rfl hwords hbefore herror
    rw [hrefuses]
    dsimp only
    split
    · rename_i e he
      rw [he]
      exact ⟨fun h => by cases h; rfl, fun h => by cases h; rfl⟩
    · rename_i hnone
      rw [hnone]
      exact ⟨nofun, nofun⟩

/-- Words are accepted if they are homogeneous. -/
theorem exists_ofWords_iff {words : Combination} :
    (∃ e, ofWords words = .ok e) ↔ IsHomogeneous (words.filter (·.1 ≠ 0)) := by
  simp only [ofWords_eq_ok_iff]
  constructor
  · rintro ⟨-, x, rest, hfilter, hwords, -⟩
    rw [hfilter]
    refine ⟨List.cons_ne_nil _ _, fun y hy => (hwords y hy).1, fun y hy z hz => ?_⟩
    exact Word.content_eq_iff.1 ((hwords y hy).2.trans (hwords z hz).2.symm)
  · intro h
    obtain ⟨x, rest, hfilter⟩ := List.exists_cons_of_ne_nil h.ne_nil
    refine ⟨_, x, rest, hfilter, fun y hy => ?_, rfl⟩
    rw [← hfilter] at hy
    have hx : x ∈ words.filter (·.1 ≠ 0) := by
      rw [hfilter]
      exact List.mem_cons_self
    exact ⟨h.degree y hy, Word.content_eq_iff.2 (h.letters y hy x hx)⟩

end Identity

/-! ## Occurrences -/

namespace Pattern

/-- The numbers of the occurrences of a variable, from left to right. -/
def occurrences (v : Nat) (p : Pattern) : List Nat :=
  (p.leaves.filter (·.1 = v)).map (·.2)

theorem occurrences_product (v : Nat) (l r : Pattern) :
    (product l r).occurrences v = l.occurrences v ++ r.occurrences v := by
  simp [occurrences, leaves]

/-- The occurrences in a word go on from those before it. -/
theorem occurrences_numberFrom {letters : List Char} {w : Word} (hw : ∀ c ∈ w.letters, c ∈ letters)
    {before : List Nat} (hb : before.length = letters.length) (v : Nat) :
    (numberFrom letters w before).1.occurrences v =
      List.range' (before.getD v 0) ((w.letters.map letters.idxOf).count v) := by
  induction w generalizing before with
  | letter c =>
    by_cases h : letters.idxOf c = v
    · simp [numberFrom, occurrences, leaves, h]
    · simp [numberFrom, occurrences, leaves, h]
  | product l r hl hr =>
    simp only [Word.letters_product, List.forall_mem_append] at hw
    obtain ⟨hlen, hcount, -, -⟩ := numberFrom_spec hw.1 hb
    rw [Word.letters_product, List.map_append, List.count_append, numberFrom, occurrences_product,
      hl hw.1 hb, hr hw.2 hlen, hcount, List.range'_append_1]

end Pattern

namespace Identity

/-- What an identity keeps of its words. -/
structure Numbers (e : Identity) (words : Combination) : Prop where
  ascending : e.letters.Pairwise (· < ·)
  mem_letters_iff : ∀ x ∈ words, ∀ c, c ∈ e.letters ↔ c ∈ x.2.letters
  degrees_eq : ∀ x ∈ words, e.degrees = e.letters.map x.2.letters.count
  words_eq : e.words = words
  occurrences_eq : ∀ t ∈ e.terms, ∀ v, t.pattern.occurrences v = List.range (e.degrees.getD v 0)

theorem numbers_of_ofWords {words : Combination} {e : Identity} (h : ofWords words = .ok e) :
    e.Numbers (words.filter (·.1 ≠ 0)) := by
  obtain ⟨hwords, -, -⟩ := words_of_ofWords h
  obtain ⟨x, rest, hfilter, hcontent, rfl⟩ := ofWords_eq_ok_iff.1 h
  rw [hfilter] at hwords ⊢
  have hletters : ∀ y ∈ x :: rest, ∀ c, c ∈ x.2.content.map (·.1) ↔ c ∈ y.2.letters :=
    fun y hy c => by rw [Word.mem_letters_iff, (hcontent y hy).2]
  have hdegrees : ∀ y ∈ x :: rest,
      x.2.content.map (·.2) = (x.2.content.map (·.1)).map y.2.letters.count := by
    intro y hy
    rw [← (hcontent y hy).2, List.map_map]
    exact List.map_congr_left fun z hz => (Word.mem_content_iff.1 hz).1
  refine ⟨List.pairwise_map.2 x.2.content_spec.1, hletters, hdegrees, hwords, fun t ht v => ?_⟩
  obtain ⟨y, hy, rfl⟩ := List.mem_map.1 ht
  have hown := fun c hc => (hletters y hy c).2 hc
  rw [Pattern.ofWord, Pattern.occurrences_numberFrom hown (List.length_map _), Pattern.getD_zeros,
    Pattern.count_map_idxOf x.2.nodup_letters_content hown, ← List.getElem?_map,
    ← hdegrees y hy, List.range_eq_range', List.getD_eq_getElem?_getD]
  rfl

/-- Words make an identity exactly if they are homogeneous, those with coefficient zero left out.
Otherwise the error is that of the first one that does not belong there. The identity has the
letters of the words in order and the number of their occurrences, and its terms are the words, with
the occurrences of each variable numbered from left to right. -/
theorem ofWords_homogeneous (words : Combination) :
    ((∃ e, ofWords words = .ok e) ↔ IsHomogeneous (words.filter (·.1 ≠ 0))) ∧
      (∀ error, ofWords words = .error error ↔ Refuses (words.filter (·.1 ≠ 0)) error) ∧
      ∀ e, ofWords words = .ok e → e.Numbers (words.filter (·.1 ≠ 0)) :=
  ⟨exists_ofWords_iff, fun _ => ofWords_eq_error_iff, fun _ => numbers_of_ofWords⟩

/-- The words `(yx)(xx)` and `x((xy)x)`, between which a word with coefficient zero stands. -/
theorem ofWords_homogeneous_quartic :
    let l : Word := .product (.product (.letter 'y') (.letter 'x'))
      (.product (.letter 'x') (.letter 'x'))
    let r : Word := .product (.letter 'x')
      (.product (.product (.letter 'x') (.letter 'y')) (.letter 'x'))
    let e : Identity := ⟨['x', 'y'], [3, 1],
      [⟨1, .product (.product (.leaf 1 0) (.leaf 0 0)) (.product (.leaf 0 1) (.leaf 0 2))⟩,
        ⟨-2, .product (.leaf 0 0) (.product (.product (.leaf 0 1) (.leaf 1 0)) (.leaf 0 2))⟩]⟩
    ofWords [(1, l), (0, .letter 'x'), (-2, r)] = .ok e ∧ e.Numbers [(1, l), (-2, r)] := by
  intro l r e
  have he : ofWords [(1, l), (0, .letter 'x'), (-2, r)] = .ok e := rfl
  exact ⟨he, (ofWords_homogeneous _).2.2 e he⟩

end Identity

end Nonassoc
