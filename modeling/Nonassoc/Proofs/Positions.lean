import Mathlib.Algebra.GroupWithZero.Nat
import Nonassoc.Proofs.Parsing

/-!
# Where reading stands

A cursor is reached from another one if the text between them has been read and its bytes have been
counted (`Cursor.Reaches`). All that reading returns stands at a cursor reached from the one where it
began (`sum_reaches`). Where it stands is determined by the lexemes that are left, up to blank
characters (`Cursor.Reaches.skip_eq`), so that positions can be told from the grammar.
-/

namespace Nonassoc.Combination.Parser

/-- The number of bytes that characters take. -/
def bytes (l : List Char) : Nat := (String.ofList l).utf8ByteSize

@[simp] theorem bytes_nil : bytes [] = 0 := rfl

@[simp] theorem bytes_cons (c : Char) (l : List Char) : bytes (c :: l) = c.utf8Size + bytes l := by
  rw [bytes, String.ofList_cons, String.utf8ByteSize_append, String.utf8ByteSize_singleton, bytes]

@[simp] theorem bytes_append (l r : List Char) : bytes (l ++ r) = bytes l + bytes r := by
  rw [bytes, String.ofList_append, String.utf8ByteSize_append, bytes, bytes]

theorem utf8Size_of_isDigit {c : Char} (h : c.isDigit = true) : c.utf8Size = 1 := by
  have hdigit : c.isDigit = (decide (c.val ≥ '0'.val) && decide (c.val ≤ '9'.val)) := rfl
  rw [Char.utf8Size_eq_one_iff]
  grind

theorem bytes_of_isDigit {l : List Char} (h : ∀ c ∈ l, c.isDigit = true) : bytes l = l.length := by
  induction l with
  | nil => rfl
  | cons c l ih =>
    rw [List.forall_mem_cons] at h
    rw [bytes_cons, ih h.2, utf8Size_of_isDigit h.1, List.length_cons, Nat.add_comm]

/-! ## Cursors -/

/-- The blank characters that are passed. -/
theorem skipBlanks_split (rest : List Char) (position : Nat) :
    ∃ blanks, rest = blanks ++ (skipBlanks rest position).rest ∧
      (skipBlanks rest position).position = position + bytes blanks ∧
        ∀ x ∈ blanks, Text.isBlank x = true := by
  induction rest generalizing position with
  | nil => exact ⟨[], rfl, rfl, nofun⟩
  | cons c rest ih =>
    rw [skipBlanks]
    split
    · rename_i hc
      obtain ⟨blanks, hrest, hposition, hblank⟩ := ih (position + c.utf8Size)
      refine ⟨c :: blanks, congrArg _ hrest, ?_, List.forall_mem_cons.2 ⟨hc, hblank⟩⟩
      rw [hposition, bytes_cons, Nat.add_assoc]
    · exact ⟨[], rfl, rfl, nofun⟩

namespace Cursor

/-- Reading on from `c` has led to `d`. -/
def Reaches (c d : Cursor) : Prop :=
  ∃ read, c.rest = read ++ d.rest ∧ d.position = c.position + bytes read

theorem Reaches.refl (c : Cursor) : c.Reaches c := ⟨[], rfl, rfl⟩

theorem Reaches.trans {c d e : Cursor} (h : c.Reaches d) (h' : d.Reaches e) : c.Reaches e := by
  obtain ⟨l, hl, hp⟩ := h
  obtain ⟨r, hr, hp'⟩ := h'
  exact ⟨l ++ r, by rw [hl, hr, List.append_assoc], by rw [hp', hp, bytes_append, Nat.add_assoc]⟩

theorem reaches_skipBlanks (rest : List Char) (position : Nat) :
    Reaches ⟨rest, position⟩ (skipBlanks rest position) := by
  obtain ⟨blanks, hrest, hposition, -⟩ := skipBlanks_split rest position
  exact ⟨blanks, hrest, hposition⟩

variable {c : Cursor}

theorem reaches_skip (c : Cursor) : c.Reaches c.skip := reaches_skipBlanks _ _

theorem Reaches.skip {d : Cursor} (h : c.Reaches d) : c.Reaches d.skip := h.trans d.reaches_skip

theorem skip_skip (c : Cursor) : c.skip.skip = c.skip := by
  cases hrest : c.skip.rest with
  | nil =>
    rw [skip, hrest, skipBlanks, ← hrest]
  | cons x rest =>
    rw [skip, hrest, skipBlanks, isBlank_skipBlanks hrest, ← hrest]
    rfl

/-- Where the next character stands, and the cursor after it. -/
theorem next?_eq_some {x : Char} {d : { d : Cursor // d.rest.length < c.rest.length }}
    (h : c.next? = some (x, d)) :
    c.skip.rest = x :: d.val.rest ∧ d.val.position = c.skip.position + x.utf8Size ∧
      c.peek = some x ∧ Text.isBlank x = false := by
  rcases c.next?_cases with ⟨hnone, -⟩ | ⟨y, e, he, hpeek, hrest, hb⟩
  · cases hnone.symm.trans h
  · cases he.symm.trans h
    refine ⟨hrest, ?_, hpeek, hb⟩
    unfold next? at h
    split at h
    · cases h
    · cases h
      rfl

theorem reaches_of_next? {x : Char} {d : { d : Cursor // d.rest.length < c.rest.length }}
    (h : c.next? = some (x, d)) : c.Reaches d.val := by
  obtain ⟨hrest, hposition, -⟩ := next?_eq_some h
  exact c.reaches_skip.trans ⟨[x], hrest, by simp [hposition]⟩

/-- Whether a character comes next. -/
theorem accept?_cases (c : Cursor) (x : Char) :
    (c.accept? x = none ∧ c.peek ≠ some x) ∨
      ∃ d, c.accept? x = some d ∧ c.next? = some (x, d) ∧ c.peek = some x := by
  unfold accept?
  rcases c.next?_cases with ⟨hnone, hpeek, -⟩ | ⟨y, d, hd, hpeek, -, -⟩
  · exact .inl ⟨by rw [hnone], by rw [hpeek]; nofun⟩
  · rw [hd, hpeek]
    by_cases hyx : y = x
    · subst hyx
      exact .inr ⟨d, if_pos rfl, rfl, rfl⟩
    · exact .inl ⟨if_neg hyx, fun h => hyx (Option.some.inj h)⟩

theorem reaches_of_accept? {x : Char} {d : { d : Cursor // d.rest.length < c.rest.length }}
    (h : c.accept? x = some d) : c.Reaches d.val := by
  unfold accept? at h
  split at h
  · rename_i hnext
    split at h
    · cases h
      exact reaches_of_next? hnext
    · cases h
  · cases h

theorem reaches_of_expect {what : Missing} {d : { d : Cursor // d.rest.length < c.rest.length }}
    (h : c.expect what = .ok d) : c.Reaches d.val := by
  unfold expect at h
  split at h
  · rename_i hd
    cases h
    exact reaches_of_accept? hd
  · cases h

end Cursor

section
variable {c : Cursor}

theorem reaches_of_integer {n : Nat} {d : { d : Cursor // d.rest.length ≤ c.rest.length }}
    (h : integer c = .ok (n, d)) : c.Reaches d.val := by
  refine c.reaches_skip.trans ?_
  unfold integer at h
  simp only at h
  split at h
  · cases h
  · cases h
    refine ⟨c.skip.rest.takeWhile Char.isDigit, ?_, ?_⟩
    · have happend : c.skip.rest.takeWhile Char.isDigit ++ c.skip.rest.dropWhile Char.isDigit =
        c.skip.rest := List.takeWhile_append_dropWhile
      have hdrop := congrArg (List.drop (c.skip.rest.takeWhile Char.isDigit).length) happend
      rw [List.drop_left] at hdrop
      exact happend.symm.trans (congrArg _ hdrop)
    · rw [bytes_of_isDigit fun _ hd => List.mem_takeWhile_imp hd]

theorem reaches_of_coefficient {n : Nat} {d : { d : Cursor // d.rest.length ≤ c.rest.length }}
    (h : coefficient c = .ok (n, d)) : c.Reaches d.val := by
  unfold coefficient at h
  split at h
  · exact reaches_of_integer h
  · cases h
    exact .refl c

theorem reaches_of_signed? {sign : Int} {d : { d : Cursor // d.rest.length < c.rest.length }}
    (h : signed? c = some (sign, d)) : c.Reaches d.val := by
  unfold signed? at h
  split at h
  · rename_i hd
    cases h
    exact Cursor.reaches_of_accept? hd
  · obtain ⟨d', hd, h⟩ := Option.map_eq_some_iff.1 h
    cases h
    exact Cursor.reaches_of_accept? hd

theorem powered_reaches {p q : Parsed c} (hp : c.Reaches p.next) (h : powered p = .ok q) :
    c.Reaches q.next := by
  unfold powered at h
  split at h
  · cases h
    exact hp.skip
  · rename_i caret hcaret
    split at h
    · cases h
    · obtain ⟨⟨n, next⟩, hn, h⟩ := bind_eq_ok.1 h
      simp only at h
      split at h
      · cases h
      split at h
      · cases h
      obtain ⟨value, -, h⟩ := bind_eq_ok.1 h
      cases h
      exact (hp.trans (Cursor.reaches_of_accept? hcaret)).trans (reaches_of_integer hn)

end

/-! ## Reading -/

/-- Whatever a function returns from a cursor stands where reading has led. -/
def Reaching (read : (c : Cursor) → Except ParseError (Parsed c)) (c : Cursor) : Prop :=
  ∀ p, read c = .ok p → c.Reaches p.next

section
variable {n : Nat} (ih : ∀ c : Cursor, c.rest.length < n → Reaching sum c)
include ih

theorem base_reaches {c : Cursor} (hc : c.rest.length ≤ n) : Reaching base c := by
  intro p h
  rw [base] at h
  split at h
  · cases h
  rename_i x inside hshorter hnext
  have hinside : c.Reaches inside := Cursor.reaches_of_next? hnext
  have hlt : inside.rest.length < n := Nat.lt_of_lt_of_le hshorter hc
  split at h
  · cases h
    exact hinside
  split at h
  · obtain ⟨a, ha, h⟩ := bind_eq_ok.1 h
    have hreached := hinside.trans (ih _ hlt a ha)
    have halt := Nat.lt_trans a.shorter hlt
    simp only at h
    split at h
    · rename_i comma hcomma
      obtain ⟨b, hb, h⟩ := bind_eq_ok.1 h
      obtain ⟨comma₂, hcomma₂, h⟩ := bind_eq_ok.1 h
      obtain ⟨d, hd, h⟩ := bind_eq_ok.1 h
      obtain ⟨close, hclose, h⟩ := bind_eq_ok.1 h
      obtain ⟨value, -, h⟩ := bind_eq_ok.1 h
      cases h
      have hcommalt := Nat.lt_trans comma.property halt
      have hblt := Nat.lt_trans comma₂.property (Nat.lt_trans b.shorter hcommalt)
      exact ((((hreached.trans (Cursor.reaches_of_accept? hcomma)).trans
        (ih _ hcommalt b hb)).trans (Cursor.reaches_of_expect hcomma₂)).trans
          (ih _ hblt d hd)).trans (Cursor.reaches_of_expect hclose)
    · obtain ⟨close, hclose, h⟩ := bind_eq_ok.1 h
      cases h
      exact hreached.trans (Cursor.reaches_of_expect hclose)
  split at h
  · obtain ⟨a, ha, h⟩ := bind_eq_ok.1 h
    obtain ⟨comma, hcomma, h⟩ := bind_eq_ok.1 h
    obtain ⟨b, hb, h⟩ := bind_eq_ok.1 h
    obtain ⟨close, hclose, h⟩ := bind_eq_ok.1 h
    obtain ⟨value, -, h⟩ := bind_eq_ok.1 h
    cases h
    have hcommalt := Nat.lt_trans comma.property (Nat.lt_trans a.shorter hlt)
    exact (((hinside.trans (ih _ hlt a ha)).trans (Cursor.reaches_of_expect hcomma)).trans
      (ih _ hcommalt b hb)).trans (Cursor.reaches_of_expect hclose)
  · cases h

theorem atom_reaches {c : Cursor} (hc : c.rest.length ≤ n) : Reaching atom c := by
  intro p h
  rw [atom_eq] at h
  obtain ⟨b, hb, h⟩ := bind_eq_ok.1 h
  exact powered_reaches (base_reaches ih hc b hb) h

theorem runOn_reaches {start : Cursor} {p : Parsed start} (hn : p.next.rest.length ≤ n)
    (hp : start.Reaches p.next) {q : Parsed start} (h : runOn p = .ok q) :
    start.Reaches q.next := by
  induction hl : p.next.rest.length using Nat.strong_induction_on generalizing p with
  | _ l ihl =>
    rw [runOn] at h
    split at h
    · obtain ⟨a, ha, h⟩ := bind_eq_ok.1 h
      obtain ⟨value, -, h⟩ := bind_eq_ok.1 h
      exact ihl _ (hl ▸ a.shorter) (Nat.le_trans (Nat.le_of_lt a.shorter) hn)
        (hp.trans (atom_reaches ih hn a ha)) h rfl
    · cases h
      exact hp.skip

theorem run_reaches {c : Cursor} (hc : c.rest.length ≤ n) : Reaching run c := by
  intro p h
  rw [run] at h
  obtain ⟨a, ha, h⟩ := bind_eq_ok.1 h
  exact runOn_reaches ih (Nat.le_trans (Nat.le_of_lt a.shorter) hc) (atom_reaches ih hc a ha) h

theorem chainOn_reaches {start : Cursor} {p : Parsed start} (hn : p.next.rest.length ≤ n)
    (hp : start.Reaches p.next) {q : Parsed start} (h : chainOn p = .ok q) :
    start.Reaches q.next := by
  induction hl : p.next.rest.length using Nat.strong_induction_on generalizing p with
  | _ l ihl =>
    rw [chainOn] at h
    split at h
    · cases h
      exact hp.skip
    · rename_i star hstar
      obtain ⟨r, hr, h⟩ := bind_eq_ok.1 h
      obtain ⟨value, -, h⟩ := bind_eq_ok.1 h
      have hlt := Nat.lt_trans r.shorter star.property
      have hreached := (hp.trans (Cursor.reaches_of_accept? hstar)).trans
        (run_reaches ih (Nat.le_trans (Nat.le_of_lt star.property) hn) r hr)
      exact ihl _ (hl ▸ hlt) (Nat.le_trans (Nat.le_of_lt hlt) hn) hreached h rfl

theorem chain_reaches {c : Cursor} (hc : c.rest.length ≤ n) : Reaching chain c := by
  intro p h
  rw [chain] at h
  obtain ⟨r, hr, h⟩ := bind_eq_ok.1 h
  exact chainOn_reaches ih (Nat.le_trans (Nat.le_of_lt r.shorter) hc) (run_reaches ih hc r hr) h

theorem term_reaches_step {c : Cursor} (hc : c.rest.length ≤ n) : Reaching term c := by
  intro p h
  rw [term] at h
  obtain ⟨⟨m, inner⟩, hm, h⟩ := bind_eq_ok.1 h
  obtain ⟨r, hr, h⟩ := bind_eq_ok.1 h
  obtain ⟨value, -, h⟩ := bind_eq_ok.1 h
  cases h
  exact (reaches_of_coefficient hm).trans
    (chain_reaches ih (Nat.le_trans inner.property hc) r hr)

theorem terms_reaches {start c : Cursor} {sign : Int} {sofar : Combination}
    {hle : c.rest.length ≤ start.rest.length} (hn : c.rest.length ≤ n) (hc : start.Reaches c)
    {p : Parsed start} (h : terms sign sofar c hle = .ok p) : start.Reaches p.next := by
  induction hl : c.rest.length using Nat.strong_induction_on generalizing c sign sofar with
  | _ l ihl =>
    rw [terms] at h
    obtain ⟨r, hr, h⟩ := bind_eq_ok.1 h
    obtain ⟨value, -, h⟩ := bind_eq_ok.1 h
    have hreached := hc.trans (term_reaches_step ih hn r hr)
    split at h
    · rename_i sign' d hd
      have hlt := Nat.lt_trans d.property r.shorter
      exact ihl _ (hl ▸ hlt) (Nat.le_trans (Nat.le_of_lt hlt) hn)
        (hreached.trans (reaches_of_signed? hd)) h rfl
    · obtain ⟨merged, -, h⟩ := bind_eq_ok.1 h
      cases h
      exact hreached.skip

theorem sum_reaches_step {c : Cursor} (hc : c.rest.length ≤ n) : Reaching sum c := by
  intro p h
  rw [sum] at h
  split at h
  · rename_i sign d hd
    exact terms_reaches ih (Nat.le_trans (Nat.le_of_lt d.property) hc) (reaches_of_signed? hd) h
  · exact terms_reaches ih hc (.refl c) h

end

/-- What is read as a sum ends where reading has led. -/
theorem sum_reaches (c : Cursor) : Reaching sum c := by
  induction hl : c.rest.length using Nat.strong_induction_on generalizing c with
  | _ l ihl =>
    exact sum_reaches_step (n := l) (fun d hd => ihl _ hd d rfl) (Nat.le_of_eq hl)

/-- What is read as a term ends where reading has led. -/
theorem term_reaches (c : Cursor) : Reaching term c :=
  term_reaches_step (fun d _ => sum_reaches d) (Nat.le_refl _)

/-! ## Positions from lexemes -/

/-- The number of characters of a lexeme. -/
def Lexeme.size : Lexeme → Nat
  | .char _ => 1
  | .numeral n => n.digits.length

theorem isBlank_eq_false_of_isDigit {c : Char} (h : c.isDigit = true) : Text.isBlank c = false := by
  have hdigit : c.isDigit = (decide (c.val ≥ '0'.val) && decide (c.val ≤ '9'.val)) := rfl
  rw [hdigit, Bool.and_eq_true, decide_eq_true_eq, decide_eq_true_eq] at h
  have hlow : 48 ≤ c.toNat := UInt32.le_iff_toNat_le.1 h.1
  have hhigh : c.toNat ≤ 57 := UInt32.le_iff_toNat_le.1 h.2
  simp [Text.isBlank]
  omega

/-- The lexemes of a text have all its characters that are not blank. -/
theorem sum_size_lex (l : List Char) :
    ((lex l).map Lexeme.size).sum = l.countP fun c => !Text.isBlank c := by
  induction hl : l.length using Nat.strong_induction_on generalizing l with
  | _ n ih =>
    cases l with
    | nil => simp
    | cons c rest =>
      rw [List.length_cons] at hl
      cases hb : Text.isBlank c with
      | true => simp [lex_of_isBlank hb, hb, ih rest.length (by omega) rest rfl]
      | false =>
        cases hd : c.isDigit with
        | false => simp [lex_of_not_isDigit hb hd, hb, ih rest.length (by omega) rest rfl,
            Lexeme.size, Nat.add_comm]
        | true =>
          have hlength := List.length_dropWhile_le Char.isDigit rest
          have hrest := ih (rest.dropWhile Char.isDigit).length (by omega) _ rfl
          have hdigits : (rest.takeWhile Char.isDigit).countP (fun c => !Text.isBlank c) =
              (rest.takeWhile Char.isDigit).length :=
            List.countP_eq_length.2 fun d hmem => by
              rw [isBlank_eq_false_of_isDigit (List.mem_takeWhile_imp hmem)]
              rfl
          have happend : rest.takeWhile Char.isDigit ++ rest.dropWhile Char.isDigit = rest :=
            List.takeWhile_append_dropWhile
          have hcount := congrArg (List.countP fun c => !Text.isBlank c) happend
          rw [List.countP_append] at hcount
          simp only [lex_of_isDigit hb hd, List.map_cons, List.sum_cons, Lexeme.size, Numeral.front,
            List.length_cons, List.countP_cons, hb, hrest]
          simp
          omega

/-- What has no lexemes is blank. -/
theorem isBlank_of_lex_append {l r : List Char} (h : lex (l ++ r) = lex r) :
    ∀ c ∈ l, Text.isBlank c = true := by
  have hsize := congrArg (fun ls => (ls.map Lexeme.size).sum) h
  simp only [sum_size_lex, List.countP_append, Nat.add_eq_right, List.countP_eq_zero] at hsize
  simpa using hsize

theorem skipBlanks_append {l : List Char} (h : ∀ c ∈ l, Text.isBlank c = true) (r : List Char)
    (position : Nat) : skipBlanks (l ++ r) position = skipBlanks r (position + bytes l) := by
  induction l generalizing position with
  | nil => rfl
  | cons c l ih =>
    rw [List.forall_mem_cons] at h
    rw [List.cons_append, skipBlanks, if_pos h.1, ih h.2, bytes_cons, Nat.add_assoc]

/-- Where reading has led, up to blank characters, is determined by the lexemes that are left. -/
theorem Cursor.Reaches.skip_eq {c d : Cursor} (h : c.Reaches d) {read rest : List Char}
    (hc : c.rest = read ++ rest) (hd : d.lexemes = lex rest) :
    d.skip = skipBlanks rest (c.position + bytes read) := by
  obtain ⟨read', hrest, hposition⟩ := h
  rw [hrest] at hc
  rw [Cursor.skip, hposition]
  rcases List.append_eq_append_iff.1 hc with ⟨l, rfl, hl⟩ | ⟨l, rfl, rfl⟩
  · rw [lexemes, hl] at hd
    rw [hl, skipBlanks_append (isBlank_of_lex_append hd), bytes_append, Nat.add_assoc]
  · rw [lexemes] at hd
    rw [skipBlanks_append (isBlank_of_lex_append hd.symm), bytes_append, Nat.add_assoc]

end Nonassoc.Combination.Parser
