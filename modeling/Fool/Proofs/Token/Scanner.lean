import Fool.Proofs.Token.Rules

/-!
# What is asked of a scanner

A `Scanner` cuts the next lexeme from a text and says what it skipped in front of it. It is lawful if it goes by the rules:
what it skips is white space and comments, and what it cuts is cut as `Lexer.Cut` says. The rules leave no choice
(`Lexer.Cut.unique`), so that reading a token is what any lawful scanner gives, with the places put to it
(`Scanner.Lawful.next_eq`), and there is one (`Scanner.ofLexer_lawful`).
-/

namespace Fool

namespace Lexer

variable {c : Char} {w w' r r' : List Char} {k k' : Except ParseError.Cause TokenKind} {kind kind' : TokenKind}

/-- What spells something matches a rule. -/
theorem Spells.matches (h : Spells w kind) : Matches w := by
  cases h with
  | keyword k => exact .keyword k
  | mark m => exact .mark m
  | number hc hcs => exact .number hc hcs
  | identifier hc hcs => exact .word hc hcs

/-- By its first character a stretch that spells something is a mark, a number or a word. -/
theorem Spells.front (h : Spells w kind) : ∃ c cs, w = c :: cs ∧ isBlank c = false ∧
    ((∃ m : Mark, w = m.spelling ∧ kind = .mark m ∧ isLetter c = false ∧ Text.isDigit c = false) ∨
      (Text.isDigit c ∧ numberOf w ≤ maxNumber ∧ kind = .number (Int64.ofNat (numberOf w))) ∨
      (isLetter c ∧ kind = wordKind (String.ofList w))) := by
  cases h with
  | keyword k =>
    obtain ⟨c, cs, hk, hc, -⟩ := spelling_word k
    refine ⟨c, cs, hk, not_isBlank_of_isLetter hc, .inr (.inr ⟨hc, ?_⟩)⟩
    rw [String.ofList_toList]
    cases k <;> rfl
  | mark m =>
    obtain ⟨c, cs, hm, hletter, hdigit, hblank⟩ := spelling_mark m
    exact ⟨c, cs, hm, hblank, .inl ⟨m, rfl, rfl, hletter, hdigit⟩⟩
  | @number c cs hc hcs hle => exact ⟨c, cs, rfl, not_isBlank_of_isDigit hc, .inr (.inl ⟨hc, hle, rfl⟩)⟩
  | @identifier c cs hc hcs hno =>
    refine ⟨c, cs, rfl, not_isBlank_of_isLetter hc, .inr (.inr ⟨hc, ?_⟩)⟩
    have hnone : Keyword.ofSpelling? (String.ofList (c :: cs)) = none := by
      refine List.find?_eq_none.2 fun k _ hk => hno k ?_
      rw [eq_of_beq hk, String.toList_ofList]
    rw [wordKind, hnone]

/-- A stretch of text spells one thing only. -/
theorem Spells.unique (h : Spells w kind) (h' : Spells w kind') : kind = kind' := by
  obtain ⟨c, cs, rfl, -, hfirst⟩ := h.front
  obtain ⟨_, _, hcons, -, hsecond⟩ := h'.front
  obtain ⟨rfl, rfl⟩ := List.cons.inj hcons
  rcases hfirst with ⟨m, hm, rfl, hletter, hdigit⟩ | ⟨hdigit, -, rfl⟩ | ⟨hletter, rfl⟩ <;>
    rcases hsecond with ⟨m', hm', rfl, hletter', hdigit'⟩ | ⟨hdigit', -, rfl⟩ | ⟨hletter', rfl⟩
  · have hspell : m.spelling = m'.spelling := hm.symm.trans hm'
    have : m = m' := by cases m <;> cases m' <;> first | rfl | exact absurd hspell (by decide)
    rw [this]
  · exact absurd hdigit' (by rw [hdigit]; decide)
  · exact absurd hletter' (by rw [hletter]; decide)
  · exact absurd hdigit (by rw [hdigit']; decide)
  · rfl
  · exact absurd hletter' (by rw [not_isLetter_of_isDigit hdigit]; decide)
  · exact absurd hletter (by rw [hletter']; decide)
  · exact absurd hletter (by rw [not_isLetter_of_isDigit hdigit']; decide)
  · rfl

/-- Two longest matches at the front of a text are one. -/
theorem Longest.unique {text : List Char} (h : Longest w text) (h' : Longest w' text) (hw : Matches w) (hw' : Matches w')
    (hfront : w <+: text) (hfront' : w' <+: text) : w = w' :=
  List.IsPrefix.eq_of_length (List.prefix_of_prefix_length_le hfront hfront' (h' w hw hfront))
    (Nat.le_antisymm (h' w hw hfront) (h w' hw' hfront'))

/-- A run of digits that is out of range spells nothing. -/
theorem Spells.not_outOfRange {cs : List Char} (h : Spells (c :: cs) kind) (hc : Text.isDigit c)
    (hlarge : maxNumber < numberOf (c :: cs)) : False := by
  obtain ⟨_, _, hcons, -, hfront⟩ := h.front
  obtain ⟨rfl, rfl⟩ := List.cons.inj hcons
  rcases hfront with ⟨m, -, -, -, hdigit⟩ | ⟨-, hle, -⟩ | ⟨hletter, -⟩
  · exact absurd hc (by rw [hdigit]; decide)
  · exact absurd hle (Nat.not_le_of_lt hlarge)
  · exact absurd hletter (by rw [not_isLetter_of_isDigit hc]; decide)

/-- How a longest match reads: as what it spells, or as a number that is out of range. -/
def Reads (w : List Char) (k : Except ParseError.Cause TokenKind) : Prop :=
  (∃ kind, Spells w kind ∧ k = .ok kind) ∨ ∃ c cs, w = c :: cs ∧ Text.isDigit c ∧ maxNumber < numberOf w ∧
    k = .error (.integerOutOfRange (String.ofList w))

theorem Reads.unique (h : Reads w k) (h' : Reads w k') : k = k' := by
  rcases h with ⟨kind, hkind, rfl⟩ | ⟨c, cs, rfl, hc, hlarge, rfl⟩ <;>
    rcases h' with ⟨kind', hkind', rfl⟩ | ⟨_, _, hcons, hc', hlarge', rfl⟩
  · rw [hkind.unique hkind']
  · subst hcons
    exact (hkind.not_outOfRange hc' hlarge').elim
  · exact (hkind'.not_outOfRange hc hlarge).elim
  · rfl

/-- The three ways to be cut: a longest match, the beginning of a comment that never closes, a character that begins no
match. -/
theorem Cut.cases_word (h : Cut w r k) : (Matches w ∧ Longest w (w ++ r) ∧ ¬['/', '*'] <+: w ++ r ∧ Reads w k) ∨
    (w = ['/'] ∧ (∃ text, r = '*' :: text ∧ ¬['*', '/'] <:+: text) ∧ k = .error .unterminatedComment) ∨
    ∃ c, w = [c] ∧ (∀ v, Matches v → ¬v <+: c :: r) ∧ k = .error (.unexpectedCharacter c) := by
  cases h with
  | token hspells hlongest hcomment => exact .inl ⟨hspells.matches, hlongest, hcomment, .inl ⟨_, hspells, rfl⟩⟩
  | unexpected hno => exact .inr (.inr ⟨_, rfl, hno, rfl⟩)
  | outOfRange hc hcs hlongest hlarge =>
    refine .inl ⟨.number hc hcs, hlongest, fun hstart => ?_, .inr ⟨_, _, rfl, hc, hlarge, rfl⟩⟩
    obtain rfl := (List.cons_prefix_cons.1 hstart).1
    exact absurd hc (by decide)
  | unclosed hopen => exact .inr (.inl ⟨rfl, ⟨_, rfl, hopen⟩, rfl⟩)

/-- **The rules leave no choice.** What is cut from the front of a text, and what it reads as, are determined by the text. -/
theorem Cut.unique (h : Cut w r k) (h' : Cut w' r' k') (htext : w ++ r = w' ++ r') : w = w' ∧ r = r' ∧ k = k' := by
  suffices hword : w = w' ∧ k = k' by
    obtain ⟨rfl, rfl⟩ := hword
    exact ⟨rfl, List.append_cancel_left htext, rfl⟩
  have hslash : ∀ {c : Char} {text : List Char}, (∀ v, Matches v → ¬v <+: c :: text) → c ≠ '/' := by
    rintro _ text hno rfl
    exact hno _ (.mark .divide) ⟨text, rfl⟩
  rcases h.cases_word with ⟨hw, hlongest, hstart, hreads⟩ | ⟨rfl, ⟨text, rfl, -⟩, rfl⟩ | ⟨c, rfl, hno, rfl⟩ <;>
    rcases h'.cases_word with ⟨hw', hlongest', hstart', hreads'⟩ | ⟨rfl, ⟨text', rfl, -⟩, rfl⟩ | ⟨c', rfl, hno', rfl⟩
  · obtain rfl := hlongest.unique (htext ▸ hlongest') hw hw' (List.prefix_append _ _) (htext ▸ List.prefix_append _ _)
    exact ⟨rfl, hreads.unique hreads'⟩
  · exact absurd (htext ▸ List.prefix_append ['/', '*'] text') hstart
  · exact absurd ⟨r, htext⟩ (hno' w hw)
  · exact absurd (htext ▸ List.prefix_append ['/', '*'] text) hstart'
  · exact ⟨rfl, rfl⟩
  · exact absurd (List.cons.inj htext).1.symm (hslash hno')
  · exact absurd ⟨r', htext.symm⟩ (hno w' hw')
  · exact absurd (List.cons.inj htext).1 (hslash hno)
  · obtain rfl := (List.cons.inj htext).1
    exact ⟨rfl, rfl⟩

/-- Where a lexeme is cut, there stands no white space and no comment that closes. -/
theorem Cut.front (h : Cut w r k) : ∃ c cs, w ++ r = c :: cs ∧ isBlank c = false ∧
    ∀ text, c :: cs = '/' :: '*' :: text → ¬['*', '/'] <:+: text := by
  cases h with
  | token hspells _ hcomment =>
    obtain ⟨c, cs, rfl, hblank, -⟩ := hspells.front
    refine ⟨c, cs ++ r, rfl, hblank, fun text htext => absurd ?_ hcomment⟩
    exact ⟨text, htext.symm⟩
  | @unexpected c _ hno =>
    refine ⟨c, r, rfl, eq_false_of_ne_true fun hblank => ?_, fun text htext => ?_⟩
    · exact hno [c] (.blanks hblank (by simp)) ⟨r, rfl⟩
    · exact absurd ⟨'*' :: text, htext.symm⟩ (hno _ (.mark .divide))
  | @outOfRange c cs _ hc =>
    refine ⟨c, cs ++ r, rfl, not_isBlank_of_isDigit hc, fun text htext => ?_⟩
    obtain rfl := (List.cons.inj htext).1
    exact absurd hc (by decide)
  | @unclosed rest hopen =>
    refine ⟨'/', '*' :: rest, rfl, by decide, fun text htext => ?_⟩
    cases htext
    exact hopen

end Lexer

namespace Cursor

open Lexer

variable {c : Char} {cs w r : List Char} {k : Except ParseError.Cause TokenKind} {l : Position}

/-- Nothing is skipped where a lexeme is cut. -/
theorem skipBlank_cut (h : Cut w r k) : skipBlank ⟨w ++ r, l⟩ = ⟨w ++ r, l⟩ := by
  obtain ⟨c, cs, htext, hblank, hcomment⟩ := h.front
  rw [htext]
  by_cases hstart : ['/', '*'] <+: c :: cs
  · obtain ⟨text, rfl, rfl⟩ : ∃ text, c = '/' ∧ cs = '*' :: text := by
      obtain ⟨text, heq⟩ := hstart
      exact ⟨text, (List.cons.inj heq).1.symm, (List.cons.inj heq).2.symm⟩
    rw [skipBlank]
    have hnone : afterComment? ((l.next '/').next '*') text = none := afterComment?_eq_none.2 (hcomment text rfl)
    split
    · rename_i behind hbehind
      cases hnone.symm.trans hbehind
    · rfl
  · exact skipBlank_self hblank hstart

end Cursor

/-- A scanner: what it skips in front of the next lexeme of a text, and the lexeme, if there is one. -/
def Scanner : Type := List Char → Option (List Char × Lexer.Lexeme)

namespace Scanner

open Lexer

/-- A scanner that goes by the rules. -/
structure Lawful (scan : Scanner) : Prop where
  /-- Where it finds no lexeme there is only white space and comments. -/
  none : ∀ text, scan text = none → Separator text
  /-- What it skips is white space and comments, what it cuts is cut by the rules, and both stand in the text. -/
  some : ∀ text sep x, scan text = some (sep, x) →
    text = sep ++ (x.text ++ x.rest) ∧ Separator sep ∧ Cut x.text x.rest x.reading

/-- **Reading a token is what any scanner gives that goes by the rules, with the places put to it.** -/
theorem Lawful.next_eq {scan : Scanner} (h : scan.Lawful) (text : List Char) (l : Position) :
    Cursor.next ⟨text, l⟩ = match scan text with
      | .none => (.ok ⟨.endOfInput, l.after text, (l.after text).offset⟩, ⟨[], l.after text⟩)
      | .some (sep, x) => Cursor.ofLexeme (l.after sep) x := by
  cases hscan : scan text with
  | none =>
    have hskip : Cursor.skipBlank ⟨text, l⟩ = ⟨[], l.after text⟩ := by
      have hend : Cursor.skipBlank ⟨text ++ [], l⟩ = Cursor.skipBlank ⟨[], l.after text⟩ :=
        Cursor.skipBlank_separator (h.none text hscan)
      rwa [List.append_nil, Cursor.skipBlank] at hend
    rw [Cursor.next, hskip]
  | some found =>
    obtain ⟨sep, x⟩ := found
    obtain ⟨rfl, hsep, hcut⟩ := h.some text sep x hscan
    obtain ⟨c, cs, htext, hblank, hcomment⟩ := hcut.front
    have hskip : Cursor.skipBlank ⟨sep ++ (x.text ++ x.rest), l⟩ = ⟨c :: cs, l.after sep⟩ := by
      rw [Cursor.skipBlank_separator hsep, Cursor.skipBlank_cut hcut, htext]
    obtain ⟨hword, hrest, hreading⟩ :=
      (lexeme_cut hblank hcomment).unique hcut ((lexeme_append c cs).trans htext.symm)
    have hx : lexeme c cs = x := by
      obtain ⟨word, rest, reading⟩ := x
      exact (congr (congr (congrArg Lexeme.mk hword) hrest) hreading)
    rw [Cursor.next, hskip]
    exact congrArg (Cursor.ofLexeme (l.after sep)) hx

/-- The scanner that `Cursor.next` reads with. -/
def ofLexer : Scanner := fun text =>
  match (Cursor.skipBlank ⟨text, .start⟩).rest with
  | [] => none
  | c :: cs => some (text.take (text.length - (c :: cs).length), lexeme c cs)

/-- **The lexer goes by the rules.** -/
theorem ofLexer_lawful : ofLexer.Lawful where
  none text h := by
    obtain ⟨sep, hsep, htext, -⟩ := Cursor.skipBlank_eq ⟨text, .start⟩
    unfold ofLexer at h
    split at h
    · rename_i hend
      rw [hend, List.append_nil] at htext
      rwa [show text = sep from htext]
    · cases h
  some text sep x h := by
    obtain ⟨sep', hsep, htext, -⟩ := Cursor.skipBlank_eq ⟨text, .start⟩
    unfold ofLexer at h
    split at h
    · cases h
    · rename_i c cs hfront
      obtain ⟨hblank, hcomment⟩ := Cursor.skipBlank_rest hfront
      obtain rfl : text = sep' ++ c :: cs := hfront ▸ htext
      obtain ⟨rfl, rfl⟩ : sep' = sep ∧ lexeme c cs = x := by simpa using h
      exact ⟨by rw [lexeme_append], hsep, lexeme_cut hblank hcomment⟩

end Scanner

end Fool
