import Mathlib.Data.List.Infix
import Mathlib.Data.List.TakeWhile
import Fool.Token.Lexer

/-!
# The rules of the lexer

The rules say, without a lexer, which stretches of text belong together: white space, comments, words, numbers and marks
(`Matches`), and what the last three spell (`Spells`). A token is the longest stretch at the front of a text that matches a
rule. Here the parts of the lexer are held against the rules: `afterComment?` finds the first end of a comment
(`afterComment?_eq_some`, `afterComment?_eq_none`), what is skipped separates tokens (`skipBlank_eq`,
`skipBlank_separator`), and what is cut from the front of the rest is a longest match or the beginning of none
(`lexeme_cut`).
-/

namespace Fool

namespace Lexer

/-! ## Rules -/

/-- Between these characters a comment ends where it is to end, and not before. -/
def IsBody (body : List Char) : Prop := ¬['*', '/'] <:+: body ++ ['*']

instance (body : List Char) : Decidable (IsBody body) := inferInstanceAs (Decidable ¬_)

/-- A comment. -/
def commentText (body : List Char) : List Char := '/' :: '*' :: (body ++ ['*', '/'])

/-- A stretch of text that one of the rules matches as a whole. -/
inductive Matches : List Char → Prop
  | blanks {c : Char} {cs : List Char} : isBlank c → (∀ c ∈ cs, isBlank c) → Matches (c :: cs)
  | comment {body : List Char} : IsBody body → Matches (commentText body)
  | keyword (k : Keyword) : Matches k.spelling.toList
  | mark (m : Mark) : Matches m.spelling
  | number {c : Char} {cs : List Char} : Text.isDigit c → (∀ c ∈ cs, Text.isDigit c) → Matches (c :: cs)
  | word {c : Char} {cs : List Char} : isLetter c → (∀ c ∈ cs, isWordChar c) → Matches (c :: cs)

/-- At the front of the text no stretch matches that is longer than the word. -/
def Longest (word text : List Char) : Prop := ∀ w, Matches w → w <+: text → w.length ≤ word.length

/-- The number that a run of digits stands for. -/
def numberOf (digits : List Char) : Nat := Nat.ofDigitChars 10 digits 0

/-- What a stretch of text spells. A word that is reserved is no identifier. -/
inductive Spells : List Char → TokenKind → Prop
  | keyword (k : Keyword) : Spells k.spelling.toList (.keyword k)
  | mark (m : Mark) : Spells m.spelling (.mark m)
  | number {c : Char} {cs : List Char} : Text.isDigit c → (∀ c ∈ cs, Text.isDigit c) → numberOf (c :: cs) ≤ maxNumber →
      Spells (c :: cs) (.number (Int64.ofNat (numberOf (c :: cs))))
  | identifier {c : Char} {cs : List Char} : isLetter c → (∀ c ∈ cs, isWordChar c) →
      (∀ k : Keyword, k.spelling.toList ≠ c :: cs) → Spells (c :: cs) (.identifier (String.ofList (c :: cs)))

/-- White space and comments, which stand between tokens and at both ends. -/
inductive Separator : List Char → Prop
  | nil : Separator []
  | blank {c : Char} {cs : List Char} : isBlank c → Separator cs → Separator (c :: cs)
  | comment {body cs : List Char} : IsBody body → Separator cs → Separator (commentText body ++ cs)

/-- A text is to be cut behind `word`, and this is what the word reads as: the longest match, or a fault. A character that
begins no match is one, a run of digits that is out of range, and the first character of a comment that never closes. -/
inductive Cut : List Char → List Char → Except ParseError.Cause TokenKind → Prop
  | token {word rest : List Char} {kind : TokenKind} : Spells word kind → Longest word (word ++ rest) →
      ¬['/', '*'] <+: word ++ rest → Cut word rest (.ok kind)
  | unexpected {c : Char} {rest : List Char} : (∀ w, Matches w → ¬w <+: c :: rest) →
      Cut [c] rest (.error (.unexpectedCharacter c))
  | outOfRange {c : Char} {cs rest : List Char} : Text.isDigit c → (∀ c ∈ cs, Text.isDigit c) →
      Longest (c :: cs) (c :: cs ++ rest) → maxNumber < numberOf (c :: cs) →
      Cut (c :: cs) rest (.error (.integerOutOfRange (String.ofList (c :: cs))))
  | unclosed {rest : List Char} : ¬['*', '/'] <:+: rest → Cut ['/'] ('*' :: rest) (.error .unterminatedComment)

/-- What an answer says, without its place. -/
def reading : Except ParseError Token → Except ParseError.Cause TokenKind
  | .ok t => .ok t.kind
  | .error e => .error e.cause

variable {c : Char} {cs w body rest : List Char} {m : Mark} {l : Position} {r : Cursor}

/-! ## Characters -/

/-- What holds of none of the five blanks holds of no blank. -/
theorem not_isBlank {p : Char → Bool} (hp : [' ', '\t', '\r', '\n', '\x0c'].all (!p ·)) (h : p c) :
    isBlank c = false := by
  refine eq_false_of_ne_true fun hblank => ?_
  have hmem : c ∈ [' ', '\t', '\r', '\n', '\x0c'] := by
    simpa only [isBlank, Bool.or_eq_true, beq_iff_eq, List.mem_cons, List.not_mem_nil, or_false, or_assoc] using hblank
  have hno := List.all_eq_true.1 hp c hmem
  rw [h] at hno
  cases hno

theorem not_isBlank_of_isLetter (h : isLetter c) : isBlank c = false := not_isBlank rfl h

theorem not_isBlank_of_isDigit (h : Text.isDigit c) : isBlank c = false := not_isBlank rfl h

theorem not_isLetter_of_isDigit (h : Text.isDigit c) : isLetter c = false := by
  simp only [Text.isDigit, isLetter, Bool.and_eq_true, Bool.or_eq_false_iff, Bool.and_eq_false_iff, decide_eq_true_eq,
    decide_eq_false_iff_not, Char.le_def, UInt32.le_iff_toNat_le] at h ⊢
  have h9 : '9'.val.toNat = 57 := rfl
  have ha : 'a'.val.toNat = 97 := rfl
  have hA : 'A'.val.toNat = 65 := rfl
  omega

/-- A reserved word is a word. -/
theorem spelling_word (k : Keyword) : ∃ c cs, k.spelling.toList = c :: cs ∧ isLetter c ∧ ∀ c ∈ cs, isWordChar c := by
  cases k <;> exact ⟨_, _, rfl, rfl, List.all_eq_true.1 rfl⟩

/-- A mark begins with no letter, no digit and no blank. -/
theorem spelling_mark (m : Mark) : ∃ c cs, m.spelling = c :: cs ∧ isLetter c = false ∧ Text.isDigit c = false ∧
    isBlank c = false := by
  cases m <;> exact ⟨_, _, rfl, by decide, by decide, by decide⟩

/-! ## Comments -/

theorem isBody_nil : IsBody [] := by
  intro h
  exact absurd h.length_le (by decide)

theorem isBody_cons : IsBody (c :: body) ↔ ¬(c = '*' ∧ body.head? = some '/') ∧ IsBody body := by
  unfold IsBody
  rw [List.cons_append, List.infix_cons_iff, not_or, List.cons_prefix_cons]
  refine and_congr_left fun _ => not_congr (and_congr eq_comm ?_)
  cases body with
  | nil => simp
  | cons d body => simp [eq_comm]

/-- **The first end of a comment is found.** -/
theorem afterComment?_eq_some : afterComment? l cs = some r ↔
    ∃ body, IsBody body ∧ cs = body ++ '*' :: '/' :: r.rest ∧ r.place = l.after (body ++ ['*', '/']) := by
  fun_induction afterComment? l cs with
  | case1 l cs =>
    constructor
    · intro h
      cases h
      exact ⟨[], isBody_nil, rfl, rfl⟩
    · rintro ⟨_ | ⟨d, body⟩, hbody, hcs, hl⟩
      · obtain ⟨rest, place⟩ := r
        obtain rfl : cs = rest := by simpa using hcs
        exact congrArg (fun p => some (Cursor.mk cs p)) hl.symm
      · obtain ⟨rfl, htail⟩ := List.cons.inj hcs
        refine absurd ⟨rfl, ?_⟩ (isBody_cons.1 hbody).1
        cases body with
        | nil => cases (List.cons.inj htail).1
        | cons d body => rw [(List.cons.inj htail).1, List.head?_cons]
  | case2 l d cs hopen ih =>
    rw [ih]
    constructor
    · rintro ⟨body, hbody, hcs, hl⟩
      refine ⟨d :: body, isBody_cons.2 ⟨?_, hbody⟩, by rw [hcs, List.cons_append], by rw [hl]; rfl⟩
      rintro ⟨rfl, hhead⟩
      obtain ⟨body, rfl⟩ : ∃ tail, body = '/' :: tail := List.head?_eq_some_iff.1 hhead
      exact hopen _ rfl hcs
    · rintro ⟨_ | ⟨d', body⟩, hbody, hcs, hl⟩
      · obtain ⟨rfl, rfl⟩ := List.cons.inj hcs
        exact absurd rfl (hopen _ rfl)
      · obtain ⟨rfl, htail⟩ := List.cons.inj hcs
        exact ⟨body, (isBody_cons.1 hbody).2, htail, hl⟩
  | case3 l => simp

/-- A comment has no end just where `*/` stands nowhere behind its beginning. -/
theorem afterComment?_eq_none : afterComment? l cs = none ↔ ¬['*', '/'] <:+: cs := by
  fun_induction afterComment? l cs with
  | case1 l cs =>
    have hstands : ['*', '/'] <:+: '*' :: '/' :: cs := ⟨[], cs, rfl⟩
    simp [hstands]
  | case2 l d cs hopen ih =>
    rw [ih, List.infix_cons_iff, not_or, List.cons_prefix_cons]
    refine ⟨fun h => ⟨?_, h⟩, And.right⟩
    rintro ⟨rfl, hprefix⟩
    obtain ⟨rest, rfl⟩ := hprefix
    exact hopen _ rfl rfl
  | case3 l => simp

/-! ## Longest matches -/

/-- What a stretch at the front of a text is, by the first character of the text. -/
theorem Matches.front (h : Matches w) (hw : w <+: c :: cs) : isBlank c ∨ (∃ body, IsBody body ∧ w = commentText body) ∨
    (Text.isDigit c ∧ ∃ ds, w = c :: ds ∧ ∀ d ∈ ds, Text.isDigit d) ∨
    (isLetter c ∧ ∃ ds, w = c :: ds ∧ ∀ d ∈ ds, isWordChar d) ∨ ∃ m : Mark, w = m.spelling := by
  have hhead : ∀ d ds, w = d :: ds → d = c := fun d ds hd => (List.cons_prefix_cons.1 (hd ▸ hw)).1
  cases h with
  | blanks hc _ => exact .inl (hhead _ _ rfl ▸ hc)
  | comment hbody => exact .inr (.inl ⟨_, hbody, rfl⟩)
  | keyword k =>
    obtain ⟨d, ds, hk, hd, hds⟩ := spelling_word k
    obtain rfl := hhead d ds hk
    exact .inr (.inr (.inr (.inl ⟨hd, ds, hk, hds⟩)))
  | mark m => exact .inr (.inr (.inr (.inr ⟨m, rfl⟩)))
  | number hd hds =>
    obtain rfl := hhead _ _ rfl
    exact .inr (.inr (.inl ⟨hd, _, rfl, hds⟩))
  | word hd hds =>
    obtain rfl := hhead _ _ rfl
    exact .inr (.inr (.inr (.inl ⟨hd, _, rfl, hds⟩)))

/-- A stretch of such characters is no longer than the run of them. -/
theorem length_le_takeWhile {p : Char → Bool} {ds : List Char} (h : ds <+: cs) (hds : ∀ d ∈ ds, p d) :
    ds.length ≤ (cs.takeWhile p).length := by
  obtain ⟨rest, rfl⟩ := h
  rw [List.takeWhile_append_of_pos hds, List.length_append]
  exact Nat.le_add_right _ _

theorem head_of_mark (h : m.spelling <+: c :: cs) : isLetter c = false ∧ Text.isDigit c = false ∧ isBlank c = false := by
  obtain ⟨d, ds, hm, hd⟩ := spelling_mark m
  rw [hm, List.cons_prefix_cons] at h
  exact h.1 ▸ hd

theorem head_of_comment (h : commentText body <+: c :: cs) : c = '/' ∧ ['*'] <+: cs := by
  obtain ⟨hc, hrest⟩ := List.cons_prefix_cons.1 h
  exact ⟨hc.symm, (List.prefix_append ['*'] _).trans hrest⟩

/-- **The run of word characters behind a letter is a longest match.** -/
theorem longest_word (h : isLetter c) : Longest (c :: cs.takeWhile isWordChar) (c :: cs) := by
  intro w hw hprefix
  rcases hw.front hprefix with hblank | ⟨body, -, rfl⟩ | ⟨hdigit, -⟩ | ⟨-, ds, rfl, hds⟩ | ⟨m, rfl⟩
  · exact absurd hblank (by rw [not_isBlank_of_isLetter h]; decide)
  · obtain ⟨rfl, -⟩ := head_of_comment hprefix
    exact absurd h (by decide)
  · exact absurd h (by rw [not_isLetter_of_isDigit hdigit]; decide)
  · exact Nat.succ_le_succ (length_le_takeWhile (List.cons_prefix_cons.1 hprefix).2 hds)
  · exact absurd h (by rw [(head_of_mark hprefix).1]; decide)

/-- **A run of digits is a longest match.** -/
theorem longest_digits (h : Text.isDigit c) : Longest (c :: cs.takeWhile Text.isDigit) (c :: cs) := by
  intro w hw hprefix
  rcases hw.front hprefix with hblank | ⟨body, -, rfl⟩ | ⟨-, ds, rfl, hds⟩ | ⟨hletter, -⟩ | ⟨m, rfl⟩
  · exact absurd hblank (by rw [not_isBlank_of_isDigit h]; decide)
  · obtain ⟨rfl, -⟩ := head_of_comment hprefix
    exact absurd h (by decide)
  · exact Nat.succ_le_succ (length_le_takeWhile (List.cons_prefix_cons.1 hprefix).2 hds)
  · exact absurd hletter (by rw [not_isLetter_of_isDigit h]; decide)
  · exact absurd h (by rw [(head_of_mark hprefix).2.1]; decide)

/-- The marks of two characters stand in front of the others. -/
theorem mem_take_all (m : Mark) : m.spelling.length ≤ 2 ∧ (m ∈ Mark.all.take 6 ↔ m.spelling.length = 2) := by
  cases m <;> decide

theorem mem_all (m : Mark) : m ∈ Mark.all := by cases m <;> decide

/-- The mark that is found stands there. -/
theorem isPrefix_of_front? {text : List Char} (h : Mark.front? text = some m) : m.spelling <+: text := by
  have hm := List.find?_some h
  exact List.isPrefixOf_iff_prefix.1 hm

/-- The first mark that fits is the longest that fits. -/
theorem length_le_of_front? {text : List Char} (h : Mark.front? text = some m) {m' : Mark} (hm' : m'.spelling <+: text) :
    m'.spelling.length ≤ m.spelling.length := by
  by_cases htwo : m'.spelling.length = 2
  · have hfirst : (Mark.all.take 6 ++ Mark.all.drop 6).find? (fun m => m.spelling.isPrefixOf text) = some m := by
      rwa [List.take_append_drop]
    rw [List.find?_append] at hfirst
    obtain ⟨m₂, hm₂⟩ : ∃ m₂, (Mark.all.take 6).find? (fun m => m.spelling.isPrefixOf text) = some m₂ := by
      rw [← Option.isSome_iff_exists, List.find?_isSome]
      exact ⟨m', (mem_take_all m').2.2 htwo, List.isPrefixOf_iff_prefix.2 hm'⟩
    rw [hm₂, Option.some_or] at hfirst
    cases hfirst
    rw [(mem_take_all m).2.1 (List.mem_of_find?_eq_some hm₂)]
    exact (mem_take_all m').1
  · have hle := (mem_take_all m').1
    have hpos : 0 < m.spelling.length := by
      obtain ⟨c, cs, hm, -⟩ := spelling_mark m
      rw [hm]
      exact Nat.succ_pos _
    omega

/-- **Where no comment begins, the first mark that fits is a longest match.** -/
theorem longest_mark (h : Mark.front? (c :: cs) = some m) (hcomment : ¬['/', '*'] <+: c :: cs) :
    Longest m.spelling (c :: cs) := by
  obtain ⟨hletter, hdigit, hblank⟩ := head_of_mark (isPrefix_of_front? h)
  intro w hw hprefix
  rcases hw.front hprefix with hc | ⟨body, -, rfl⟩ | ⟨hc, -⟩ | ⟨hc, -⟩ | ⟨m', rfl⟩
  · exact absurd hc (by rw [hblank]; decide)
  · obtain ⟨rfl, hstar⟩ := head_of_comment hprefix
    exact absurd (List.cons_prefix_cons.2 ⟨rfl, hstar⟩) hcomment
  · exact absurd hc (by rw [hdigit]; decide)
  · exact absurd hc (by rw [hletter]; decide)
  · exact length_le_of_front? h hprefix

/-- **A character that is no blank, no letter and no digit and begins no comment and no mark begins nothing.** -/
theorem not_matches (hblank : isBlank c = false) (hletter : isLetter c = false) (hdigit : Text.isDigit c = false)
    (hcomment : ¬['/', '*'] <+: c :: cs) (hmark : Mark.front? (c :: cs) = none) (hw : Matches w) : ¬w <+: c :: cs := by
  intro hprefix
  rcases hw.front hprefix with hc | ⟨body, -, rfl⟩ | ⟨hc, -⟩ | ⟨hc, -⟩ | ⟨m, rfl⟩
  · exact absurd hc (by rw [hblank]; decide)
  · obtain ⟨rfl, hstar⟩ := head_of_comment hprefix
    exact hcomment (List.cons_prefix_cons.2 ⟨rfl, hstar⟩)
  · exact absurd hc (by rw [hdigit]; decide)
  · exact absurd hc (by rw [hletter]; decide)
  · exact List.find?_eq_none.1 hmark m (mem_all m) (List.isPrefixOf_iff_prefix.2 hprefix)

/-- A word is a reserved word or an identifier. -/
theorem spells_word (hc : isLetter c) (hcs : ∀ c ∈ cs, isWordChar c) :
    Spells (c :: cs) (wordKind (String.ofList (c :: cs))) := by
  unfold wordKind Keyword.ofSpelling?
  cases hfind : Keyword.all.find? (fun k => k.spelling == String.ofList (c :: cs)) with
  | some k =>
    have hk : k.spelling = String.ofList (c :: cs) := by simpa using List.find?_some hfind
    have := Spells.keyword k
    rwa [hk, String.toList_ofList] at this
  | none =>
    refine .identifier hc hcs fun k hk => ?_
    have hno := List.find?_eq_none.1 hfind k (by cases k <;> decide)
    rw [← hk, String.ofList_toList] at hno
    exact hno (beq_self_eq_true _)

theorem cut_digits (h : Text.isDigit c) :
    Cut (c :: cs.takeWhile Text.isDigit) (cs.dropWhile Text.isDigit) (numberKind (c :: cs.takeWhile Text.isDigit)) := by
  have hall : ∀ d ∈ cs.takeWhile Text.isDigit, Text.isDigit d := fun d hd => List.mem_takeWhile_imp hd
  have hlongest : Longest (c :: cs.takeWhile Text.isDigit) (c :: cs.takeWhile Text.isDigit ++ cs.dropWhile Text.isDigit) := by
    rw [List.cons_append, List.takeWhile_append_dropWhile]
    exact longest_digits h
  unfold numberKind
  dsimp only
  split
  · rename_i hle
    refine .token (.number h hall hle) hlongest fun hcomment => ?_
    obtain rfl := (List.cons_prefix_cons.1 hcomment).1
    exact absurd h (by decide)
  · rename_i hgt
    exact .outOfRange h hall hlongest (Nat.lt_of_not_le hgt)

/-- **A lexeme is cut by the rules.** -/
theorem lexeme_cut (hblank : isBlank c = false) (hcomment : ∀ text, c :: cs = '/' :: '*' :: text → ¬['*', '/'] <:+: text) :
    Cut (lexeme c cs).text (lexeme c cs).rest (lexeme c cs).reading := by
  unfold lexeme
  split
  · rename_i hletter
    refine .token (spells_word hletter fun d hd => List.mem_takeWhile_imp hd) ?_ fun hstart => ?_
    · rw [List.cons_append, List.takeWhile_append_dropWhile]
      exact longest_word hletter
    · obtain rfl := (List.cons_prefix_cons.1 hstart).1
      exact absurd hletter (by decide)
  · rename_i hletter
    split
    · rename_i hdigit
      exact cut_digits hdigit
    · rename_i hdigit
      rw [Bool.not_eq_true] at hletter hdigit
      split
      · rename_i hstart
        obtain ⟨text, htext⟩ := List.isPrefixOf_iff_prefix.1 hstart
        obtain ⟨rfl, rfl⟩ := List.cons.inj htext
        exact .unclosed (hcomment text rfl)
      · rename_i hstart
        rw [List.isPrefixOf_iff_prefix] at hstart
        split
        · rename_i m hm
          have htext : m.spelling ++ (c :: cs).drop m.spelling.length = c :: cs :=
            List.prefix_iff_eq_append.1 (isPrefix_of_front? hm)
          refine .token (.mark m) ?_ ?_
          · rw [htext]
            exact longest_mark hm hstart
          · rwa [htext]
        · rename_i hm
          exact .unexpected fun w hw => not_matches hblank hletter hdigit hstart hm hw

end Lexer

namespace Cursor

open Lexer

variable {c : Char} {cs sep text : List Char} {l : Position} {r : Cursor}

/-! ## Skipping -/

theorem skipBlank_blank (h : isBlank c) : skipBlank ⟨c :: cs, l⟩ = skipBlank ⟨cs, l.next c⟩ := by
  rw [skipBlank, if_pos h]
  rintro rest rfl
  exact absurd h (by decide)

theorem skipBlank_comment (h : afterComment? ((l.next '/').next '*') cs = some r) :
    skipBlank ⟨'/' :: '*' :: cs, l⟩ = r.skipBlank := by
  rw [skipBlank]
  split
  · rename_i behind hbehind
    cases h.symm.trans hbehind
    rfl
  · rename_i hnone
    cases h.symm.trans hnone

/-- **Separators are skipped.** -/
theorem skipBlank_separator (h : Separator sep) : skipBlank ⟨sep ++ text, l⟩ = skipBlank ⟨text, l.after sep⟩ := by
  induction h generalizing l with
  | nil => rfl
  | blank hc _ ih => rw [List.cons_append, skipBlank_blank hc, ih, Position.after_cons]
  | @comment body cs hbody _ ih =>
    have hend : afterComment? ((l.next '/').next '*') (body ++ '*' :: '/' :: (cs ++ text)) =
        some ⟨cs ++ text, l.after (commentText body)⟩ := afterComment?_eq_some.2 ⟨body, hbody, rfl, rfl⟩
    have htext : commentText body ++ cs ++ text = '/' :: '*' :: (body ++ '*' :: '/' :: (cs ++ text)) := by
      simp [commentText]
    rw [htext, skipBlank_comment hend, ih, Position.after_append]

theorem next_separator (h : Separator sep) : next ⟨sep ++ text, l⟩ = next ⟨text, l.after sep⟩ := by
  simp only [next, skipBlank_separator h]

theorem readAll_separator (h : Separator sep) : readAll ⟨sep ++ text, l⟩ = readAll ⟨text, l.after sep⟩ := by
  rw [readAll.eq_def ⟨sep ++ text, l⟩, readAll.eq_def ⟨text, l.after sep⟩, skipBlank_separator h, next_separator h]

/-- Nothing is skipped where no white space stands and no comment begins. -/
theorem skipBlank_self (h : isBlank c = false) (hcomment : ¬['/', '*'] <+: c :: cs) :
    skipBlank ⟨c :: cs, l⟩ = ⟨c :: cs, l⟩ := by
  rw [skipBlank, if_neg (by rw [h]; decide)]
  rintro rest rfl rfl
  exact hcomment ⟨rest, rfl⟩

/-- **Only separators are skipped.** -/
theorem skipBlank_eq (cur : Cursor) : ∃ sep, Separator sep ∧ cur.rest = sep ++ cur.skipBlank.rest ∧
    cur.skipBlank.place = cur.place.after sep := by
  fun_induction skipBlank cur with
  | case1 l cs behind h ih =>
    obtain ⟨sep, hsep, hrest, hl⟩ := ih
    obtain ⟨body, hbody, rfl, hplace⟩ := afterComment?_eq_some.1 h
    refine ⟨commentText body ++ sep, .comment hbody hsep, ?_, ?_⟩
    · rw [hrest]
      simp [commentText]
    · rw [hl, hplace, ← Position.after_append]
      simp [commentText]
  | case2 l cs h => exact ⟨[], .nil, rfl, rfl⟩
  | case3 c cs l _ hc ih =>
    obtain ⟨sep, hsep, hrest, hl⟩ := ih
    exact ⟨c :: sep, .blank hc hsep, congrArg (c :: ·) hrest, hl⟩
  | case4 c cs l _ hc => exact ⟨[], .nil, rfl, rfl⟩
  | case5 l => exact ⟨[], .nil, rfl, rfl⟩

/-- Skipping ends where no white space stands and no comment that closes. -/
theorem skipBlank_rest {cur : Cursor} (h : cur.skipBlank.rest = c :: cs) :
    isBlank c = false ∧ ∀ text, c :: cs = '/' :: '*' :: text → ¬['*', '/'] <:+: text := by
  fun_induction skipBlank cur with
  | case1 l _ behind _ ih => exact ih h
  | case2 l cs' hnone =>
    cases h
    refine ⟨by decide, ?_⟩
    rintro _ ⟨⟩
    exact afterComment?_eq_none.1 hnone
  | case3 _ _ l _ _ ih => exact ih h
  | case4 c' cs' l hopen hc =>
    cases h
    refine ⟨eq_false_of_ne_true hc, fun text htext => ?_⟩
    obtain ⟨rfl, rfl⟩ := List.cons.inj htext
    exact absurd rfl (hopen _ rfl)
  | case5 l => cases h

end Cursor

end Fool
