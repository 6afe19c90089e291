import Fool.Parse.Error
import Fool.Text.Decimal

/-!
# Reading tokens

A `Cursor` is the unread text with the place of its first character. `Cursor.next` skips blanks and complete
comments, then takes one `lexeme`: the longest identifier, number or mark at the front, or one character that
begins none. The lexeme and what follows it are the text they were cut from (`lexeme_append`), and a lexeme is
never empty (`lexeme_text_ne_nil`); so reading reaches the end of every text (`Cursor.readAll`).
-/

namespace Fool

/-- Unread text and the place of its first character. -/
structure Cursor where
  rest : List Char
  place : Position
deriving DecidableEq, Repr

namespace Lexer

/-- White space between tokens. -/
def isBlank (c : Char) : Bool := c == ' ' || c == '\t' || c == '\r' || c == '\n' || c == '\x0c'

/-- The ASCII letters, with which identifiers and keywords begin. -/
def isLetter (c : Char) : Bool := ('a' ≤ c && c ≤ 'z') || ('A' ≤ c && c ≤ 'Z')

/-- The characters inside identifiers and keywords. -/
def isWordChar (c : Char) : Bool := isLetter c || Text.isDigit c || c == '_'

/-- The largest number that can be written. -/
def maxNumber : Nat := Int64.maxValue.toNatClampNeg

/-- What a run of letters, digits and underscores spells: a reserved word first, else an identifier. -/
def wordKind (word : String) : TokenKind :=
  match Keyword.ofSpelling? word with
  | some k => .keyword k
  | none => .identifier word

/-- What a run of digits spells, if it is in range. -/
def numberKind (digits : List Char) : Except ParseError.Cause TokenKind :=
  let n := Nat.ofDigitChars 10 digits 0
  if n ≤ maxNumber then .ok (.number (Int64.ofNat n)) else .error (.integerOutOfRange (String.ofList digits))

/-- The front of a text: the characters taken, what follows them, and what they spell. -/
structure Lexeme where
  text : List Char
  rest : List Char
  reading : Except ParseError.Cause TokenKind

/-- The lexeme at the front of `c :: cs`, where no blank and no complete comment stands. A comment that never
closes gives its first character. -/
def lexeme (c : Char) (cs : List Char) : Lexeme :=
  if isLetter c then
    let word := c :: cs.takeWhile isWordChar
    ⟨word, cs.dropWhile isWordChar, .ok (wordKind (String.ofList word))⟩
  else if Text.isDigit c then
    let digits := c :: cs.takeWhile Text.isDigit
    ⟨digits, cs.dropWhile Text.isDigit, numberKind digits⟩
  else if ['/', '*'].isPrefixOf (c :: cs) then
    ⟨[c], cs, .error .unterminatedComment⟩
  else
    match Mark.front? (c :: cs) with
    | some m => ⟨m.spelling, (c :: cs).drop m.spelling.length, .ok (.mark m)⟩
    | none => ⟨[c], cs, .error (.unexpectedCharacter c)⟩

/-- A lexeme and what follows it are the text they were cut from. -/
theorem lexeme_append (c : Char) (cs : List Char) : (lexeme c cs).text ++ (lexeme c cs).rest = c :: cs := by
  unfold lexeme
  split
  · simp
  · split
    · simp
    · split
      · simp
      · split
        · rename_i m h
          have hm := List.find?_some h
          obtain ⟨t, ht⟩ := List.isPrefixOf_iff_prefix.mp hm
          simp [← ht]
        · simp

/-- No lexeme is empty. -/
theorem lexeme_text_ne_nil (c : Char) (cs : List Char) : (lexeme c cs).text ≠ [] := by
  unfold lexeme
  split
  · simp
  · split
    · simp
    · split
      · simp
      · split
        · rename_i m _
          cases m <;> simp [Mark.spelling]
        · simp

/-- What follows a lexeme is shorter than the text it was cut from. -/
theorem lexeme_rest_length_lt (c : Char) (cs : List Char) : (lexeme c cs).rest.length < (c :: cs).length := by
  have h := congrArg List.length (lexeme_append c cs)
  have hne := List.length_pos_iff.mpr (lexeme_text_ne_nil c cs)
  rw [List.length_append] at h
  omega

/-- Behind the first `*/`, if there is one. -/
def afterComment? : Position → List Char → Option Cursor
  | l, '*' :: '/' :: cs => some ⟨cs, (l.next '*').next '/'⟩
  | l, c :: cs => afterComment? (l.next c) cs
  | _, [] => none

/-- What follows a comment is shorter than the text it was cut from. -/
theorem afterComment?_length_lt {l : Position} {cs : List Char} {r : Cursor} (h : afterComment? l cs = some r) :
    r.rest.length < cs.length := by
  fun_induction afterComment? l cs with
  | case1 l cs => cases h; exact Nat.lt_add_of_pos_right Nat.two_pos
  | case2 l c cs _ ih => exact Nat.lt_succ_of_lt (ih h)
  | case3 => cases h

end Lexer

namespace Cursor

open Lexer

/-- The beginning of a text. -/
def ofString (text : String) : Cursor := ⟨text.toList, .start⟩

/-- Past the white space and the complete comments in front. -/
def skipBlank (cur : Cursor) : Cursor :=
  match cur with
  | ⟨'/' :: '*' :: cs, l⟩ =>
    match _h : afterComment? ((l.next '/').next '*') cs with
    | some behind => behind.skipBlank
    | none => ⟨'/' :: '*' :: cs, l⟩
  | ⟨c :: cs, l⟩ => if isBlank c then skipBlank ⟨cs, l.next c⟩ else ⟨c :: cs, l⟩
  | ⟨[], l⟩ => ⟨[], l⟩
termination_by cur.rest.length
decreasing_by
  · have := afterComment?_length_lt ‹_›
    simp; omega
  · simp

/-- Skipping never lengthens the text. -/
theorem skipBlank_length_le (cur : Cursor) : cur.skipBlank.rest.length ≤ cur.rest.length := by
  fun_induction skipBlank cur with
  | case1 l cs behind h ih => have := afterComment?_length_lt h; simp; omega
  | case2 => simp
  | case3 c cs l _ _ ih => simp at ih ⊢; omega
  | case4 => simp
  | case5 => simp

/-- The answer that a lexeme at `place` gives, and the cursor behind it. -/
def ofLexeme (place : Position) (x : Lexeme) : Except ParseError Token × Cursor :=
  let behind := place.after x.text
  match x.reading with
  | .ok kind => (.ok ⟨kind, place, behind.offset⟩, ⟨x.rest, behind⟩)
  | .error cause => (.error ⟨cause, place.location⟩, ⟨x.rest, behind⟩)

@[simp] theorem ofLexeme_rest (place : Position) (x : Lexeme) : (ofLexeme place x).2.rest = x.rest := by
  unfold ofLexeme
  cases x.reading <;> rfl

/-- The next token or fault, and the cursor behind it. At the end of the text the end is the answer for ever. -/
def next (cur : Cursor) : Except ParseError Token × Cursor :=
  let front := cur.skipBlank
  match front.rest with
  | [] => (.ok ⟨.endOfInput, front.place, front.place.offset⟩, front)
  | c :: cs => ofLexeme front.place (lexeme c cs)

/-- Each answer but the end shortens the text. -/
theorem next_length_lt (cur : Cursor) (h : cur.skipBlank.rest ≠ []) :
    cur.next.2.rest.length < cur.rest.length := by
  have hle := cur.skipBlank_length_le
  simp only [next]
  split
  · contradiction
  · rename_i c cs hr
    rw [hr] at hle
    rw [ofLexeme_rest]
    exact Nat.lt_of_lt_of_le (lexeme_rest_length_lt c cs) hle

/-- All answers of a text, up to and with its end. -/
def readAll (cur : Cursor) : List (Except ParseError Token) :=
  if _h : cur.skipBlank.rest = [] then [cur.next.1] else cur.next.1 :: cur.next.2.readAll
termination_by cur.rest.length
decreasing_by exact next_length_lt cur ‹_›

end Cursor

end Fool
