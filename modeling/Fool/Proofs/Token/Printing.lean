import Fool.Proofs.Parse.Stream
import Fool.Proofs.Token.Rules

/-!
# Reading what has been printed

A list of tokens is laid out as a text by printing each token and putting separators between them (`Layout`). Behind a
printed token stands the end of the text, white space or the slash of a comment (`Closes`); none of these goes on with a
word, a number or a mark, so that the lexeme at the front is the printed token (`lexeme_print`). `readings_layout` follows
by induction on the list: whatever the separators are, the lexer reads the tokens that were printed.
-/

namespace Fool

namespace Lexer

/-! ## Printing -/

/-- How a token is written. -/
def print : TokenKind → List Char
  | .keyword k => k.spelling.toList
  | .mark m => m.spelling
  | .number v => (Text.ofInt64 v).toList
  | .identifier name => name.toList
  | .endOfInput => []

/-- The name can be that of an identifier. -/
def IsIdentifier (name : String) : Prop :=
  (∃ c cs, name.toList = c :: cs ∧ isLetter c ∧ ∀ c ∈ cs, isWordChar c) ∧ ∀ k : Keyword, k.spelling ≠ name

/-- The token can be written. -/
def Printable : TokenKind → Prop
  | .keyword _ | .mark _ => True
  | .number v => 0 ≤ v.toInt
  | .identifier name => IsIdentifier name
  | .endOfInput => False

/-- The tokens, each with a separator behind it that is not empty, but for the last, behind which it may be. -/
inductive Laid : List TokenKind → List Char → Prop
  | nil : Laid [] []
  | cons {kind : TokenKind} {sep text : List Char} {kinds : List TokenKind} : Printable kind → Separator sep →
      (sep = [] → kinds = []) → Laid kinds text → Laid (kind :: kinds) (print kind ++ (sep ++ text))

/-- The text is a layout of the tokens, with separators between them and perhaps at both ends. -/
def Layout (kinds : List TokenKind) (text : List Char) : Prop :=
  ∃ sep text', Separator sep ∧ Laid kinds text' ∧ text = sep ++ text'

/-- With this text no token goes on: it is empty, or begins with white space or the slash of a comment. -/
def Closes (text : List Char) : Prop := ∀ c ∈ text.head?, isBlank c ∨ c = '/'

variable {c : Char} {cs sep text word : List Char} {kind : TokenKind} {kinds : List TokenKind} {l : Position}

theorem Separator.closes (h : Separator sep) (hne : sep ≠ []) : Closes (sep ++ text) := by
  cases h with
  | nil => exact absurd rfl hne
  | blank hc _ =>
    intro c h
    cases h
    exact .inl hc
  | comment _ _ =>
    intro c h
    cases h
    exact .inr rfl

/-- Behind a token that has been laid out no token goes on. -/
theorem Laid.closes (h : Laid kinds text) (hsep : Separator sep) (hne : sep = [] → kinds = []) : Closes (sep ++ text) := by
  by_cases hnil : sep = []
  · obtain rfl := hne hnil
    cases h
    rw [hnil]
    intro c hc
    cases hc
  · exact hsep.closes hnil

theorem Closes.head (h : Closes (c :: cs)) : isLetter c = false ∧ isWordChar c = false ∧ Text.isDigit c = false := by
  rcases h c rfl with hblank | rfl
  · simp only [isBlank, Bool.or_eq_true, beq_iff_eq] at hblank
    rcases hblank with (((rfl | rfl) | rfl) | rfl) | rfl <;> decide
  · decide

/-- A run of such characters ends where a text closes it. -/
theorem Closes.span (h : Closes text) {p : Char → Bool} (hp : ∀ c cs, text = c :: cs → p c = false)
    (hword : ∀ c ∈ word, p c) : (word ++ text).takeWhile p = word ∧ (word ++ text).dropWhile p = text := by
  rw [List.takeWhile_append_of_pos hword, List.dropWhile_append_of_pos hword]
  cases text with
  | nil => exact ⟨List.append_nil _, rfl⟩
  | cons c cs =>
    have hc := hp c cs rfl
    rw [List.takeWhile_cons_of_neg (by simp [hc]), List.dropWhile_cons_of_neg (by simp [hc])]
    exact ⟨List.append_nil _, rfl⟩

/-! ## The lexeme at the front -/

theorem lexeme_word (hc : isLetter c) (hword : ∀ c ∈ word, isWordChar c) (h : Closes text) :
    lexeme c (word ++ text) = ⟨c :: word, text, .ok (wordKind (String.ofList (c :: word)))⟩ := by
  obtain ⟨htake, hdrop⟩ := h.span (fun d ds hd => (Closes.head (hd ▸ h)).2.1) hword
  rw [lexeme, if_pos hc, htake, hdrop]

theorem lexeme_digits (hc : Text.isDigit c) (hword : ∀ c ∈ word, Text.isDigit c) (h : Closes text) :
    lexeme c (word ++ text) = ⟨c :: word, text, numberKind (c :: word)⟩ := by
  obtain ⟨htake, hdrop⟩ := h.span (fun d ds hd => (Closes.head (hd ▸ h)).2.2) hword
  rw [lexeme, if_neg (by rw [not_isLetter_of_isDigit hc]; decide), if_pos hc, htake, hdrop]

/-- The marks that could go on do so with another character than those that close a token. -/
theorem front?_spelling (m : Mark) (h : Closes text) : Mark.front? (m.spelling ++ text) = some m := by
  cases text with
  | nil => cases m <;> decide
  | cons c cs =>
    have hequal : ('=' == c) = false := by
      rw [beq_eq_false_iff_ne]
      rintro rfl
      exact absurd (h _ rfl) (by decide)
    have hgreater : ('>' == c) = false := by
      rw [beq_eq_false_iff_ne]
      rintro rfl
      exact absurd (h _ rfl) (by decide)
    cases m <;> simp [Mark.front?, Mark.all, Mark.spelling, List.find?, List.isPrefixOf, hequal, hgreater]

theorem not_comment_spelling (m : Mark) (h : Closes text) : ¬['/', '*'] <+: m.spelling ++ text := by
  intro hcomment
  obtain ⟨c, cs, hm, -⟩ := spelling_mark m
  rw [hm, List.cons_append, List.cons_prefix_cons] at hcomment
  obtain ⟨rfl, hstar⟩ := hcomment
  obtain rfl : cs = [] := by cases m <;> simp_all [Mark.spelling]
  obtain ⟨rest, rfl⟩ := hstar
  exact absurd (h '*' rfl) (by decide)

theorem lexeme_mark {m : Mark} (hm : m.spelling = c :: word) (h : Closes text) :
    lexeme c (word ++ text) = ⟨c :: word, text, .ok (.mark m)⟩ := by
  have hfront := front?_spelling m h
  have hcomment := not_comment_spelling m h
  rw [hm, List.cons_append] at hfront hcomment
  obtain ⟨hletter, hdigit, -⟩ := head_of_mark (isPrefix_of_front? hfront)
  rw [← List.isPrefixOf_iff_prefix] at hcomment
  rw [lexeme, if_neg (by rw [hletter]; decide), if_neg (by rw [hdigit]; decide), if_neg hcomment, hfront]
  simp [hm]

theorem wordKind_spelling (k : Keyword) : wordKind k.spelling = .keyword k := by cases k <;> decide

theorem wordKind_identifier {name : String} (h : IsIdentifier name) : wordKind name = .identifier name := by
  have hnone : Keyword.ofSpelling? name = none := by
    rw [Keyword.ofSpelling?, List.find?_eq_none]
    exact fun k _ hk => h.2 k (beq_iff_eq.1 hk)
  rw [wordKind, hnone]

/-- What is written of a number that is not negative is its digits, and they stand for the number. -/
theorem print_number {v : Int64} (h : 0 ≤ v.toInt) : ∃ c cs, print (.number v) = c :: cs ∧ Text.isDigit c ∧
    (∀ c ∈ cs, Text.isDigit c) ∧ numberKind (c :: cs) = .ok (.number v) := by
  obtain ⟨n, hn⟩ := Int.eq_ofNat_of_zero_le h
  have hprint : print (.number v) = Nat.toDigits 10 n := by
    rw [print, Text.ofInt64, hn]
    exact Nat.toList_repr
  have hdigits : ∀ c ∈ Nat.toDigits 10 n, Text.isDigit c := fun c hc => by
    have := Nat.isDigit_of_mem_toDigits (b := 10) (by decide) (by decide) hc
    simpa [Char.isDigit, Text.isDigit, Char.le_def] using this
  have hvalue : Nat.ofDigitChars 10 (Nat.toDigits 10 n) 0 = n := Nat.ofDigitChars_toDigits (by decide) (by decide)
  have hmax : n ≤ maxNumber := by
    have hle := v.toInt_le
    rw [hn] at hle
    exact Int.ofNat_le.1 hle
  obtain ⟨c, cs, hcs⟩ := List.exists_cons_of_ne_nil (Nat.toDigits_ne_nil (b := 10) (n := n))
  have hnumber : Int64.ofNat n = v := by
    rw [← Int64.ofInt_eq_ofNat, ← hn, Int64.ofInt_toInt]
  rw [hcs] at hprint hdigits hvalue
  refine ⟨c, cs, hprint, hdigits c List.mem_cons_self, fun d hd => hdigits d (List.mem_cons_of_mem c hd), ?_⟩
  rw [numberKind, hvalue, if_pos hmax, hnumber]

/-- **The lexeme at the front of a layout is the printed token.** -/
theorem lexeme_print (hk : Printable kind) (h : Closes text) : ∃ c cs, print kind = c :: cs ∧ isBlank c = false ∧
    ¬['/', '*'] <+: c :: (cs ++ text) ∧ lexeme c (cs ++ text) = ⟨c :: cs, text, .ok kind⟩ := by
  cases kind with
  | keyword k =>
    obtain ⟨c, cs, hspell, hc, hcs⟩ := spelling_word k
    refine ⟨c, cs, hspell, not_isBlank_of_isLetter hc, fun hp => ?_, ?_⟩
    · obtain rfl := (List.cons_prefix_cons.1 hp).1
      exact absurd hc (by decide)
    · rw [lexeme_word hc hcs h, ← hspell, String.ofList_toList, wordKind_spelling]
  | identifier name =>
    obtain ⟨c, cs, hname, hc, hcs⟩ := hk.1
    refine ⟨c, cs, hname, not_isBlank_of_isLetter hc, fun hp => ?_, ?_⟩
    · obtain rfl := (List.cons_prefix_cons.1 hp).1
      exact absurd hc (by decide)
    · rw [lexeme_word hc hcs h, ← hname, String.ofList_toList, wordKind_identifier hk]
  | number v =>
    obtain ⟨c, cs, hprint, hc, hcs, hkind⟩ := print_number hk
    refine ⟨c, cs, hprint, not_isBlank_of_isDigit hc, fun hp => ?_, ?_⟩
    · obtain rfl := (List.cons_prefix_cons.1 hp).1
      exact absurd hc (by decide)
    · rw [lexeme_digits hc hcs h, hkind]
  | mark m =>
    obtain ⟨c, cs, hm, -, -, hblank⟩ := spelling_mark m
    refine ⟨c, cs, hm, hblank, ?_, lexeme_mark hm h⟩
    have hcomment := not_comment_spelling m h
    rwa [hm] at hcomment
  | endOfInput => exact hk.elim

end Lexer

namespace Cursor

open Lexer

variable {sep text : List Char} {kind : TokenKind} {kinds : List TokenKind}

/-! ## Reading a layout -/

/-- In front of a printed token the next answer is the token. -/
theorem next_print (hk : Printable kind) (h : Closes text) (l : Position) :
    (Cursor.mk (print kind ++ text) l).skipBlank.rest ≠ [] ∧ ∃ stop,
      (Cursor.mk (print kind ++ text) l).next = (.ok ⟨kind, l, stop⟩, ⟨text, l.after (print kind)⟩) := by
  obtain ⟨c, cs, hprint, hblank, hcomment, hlexeme⟩ := lexeme_print hk h
  rw [hprint, List.cons_append]
  have hself := skipBlank_self (l := l) hblank hcomment
  refine ⟨by rw [hself]; exact List.cons_ne_nil _ _, (l.after (c :: cs)).offset, ?_⟩
  simp only [next, hself, hlexeme, ofLexeme]

theorem readings_laid (h : Laid kinds text) (l : Position) :
    (Cursor.mk text l).readAll.map reading = kinds.map .ok ++ [.ok .endOfInput] := by
  induction h generalizing l with
  | nil =>
    rw [readAll_of_end (by rw [skipBlank]), next]
    simp only [skipBlank]
    rfl
  | cons hk hsep hne htext ih =>
    obtain ⟨hend, stop, hnext⟩ := next_print hk (htext.closes hsep hne) l
    rw [readAll_of_not_end hend, hnext, readAll_separator hsep, List.map_cons, ih]
    rfl

/-- **Reading undoes printing, whatever the layout.** -/
theorem readings_layout {text : String} (h : Layout kinds text.toList) :
    (ofString text).readAll.map reading = kinds.map .ok ++ [.ok .endOfInput] := by
  obtain ⟨sep, text', hsep, hlaid, htext⟩ := h
  rw [ofString, htext, readAll_separator hsep]
  exact readings_laid hlaid _

end Cursor

end Fool
