import Mathlib.Data.List.Basic
import Fool.Text.Blank
import Fool.Text.Decimal

/-!
# Cutting written text

What was put together from words and lines is cut into them again: a `Solid` word has no blank character, so words
with a blank between them are found by `words` (`words_solid`, `words_pair`), and lines of text are found by `lines`
(`lines_flatMap`).
-/

namespace Fool

namespace Text

variable {cs v w : List Char}

/-- A word: it is not empty and has no blank character. -/
structure Solid (w : List Char) : Prop where
  ne_nil : w ≠ []
  isSpace : ∀ c ∈ w, isSpace c = false

/-- A word that is written out is checked character by character. -/
theorem Solid.of_all (h : (!w.isEmpty && w.all fun c => !Text.isSpace c) = true) : Solid w := by
  simp only [Bool.and_eq_true, Bool.not_eq_eq_eq_not, Bool.not_true, List.isEmpty_eq_false_iff, List.all_eq_true] at h
  exact ⟨h.1, h.2⟩

theorem Solid.newline_not_mem (h : Solid w) : '\n' ∉ w := fun hn => by cases h.isSpace _ hn

/-! ## Trimming -/

theorem trimStart_of_head (h : ∀ c ∈ cs.head?, isSpace c = false) : trimStart cs = cs := by
  cases cs with
  | nil => rfl
  | cons c cs =>
    have hc := h c rfl
    simp [trimStart, hc]

theorem trimEnd_of_getLast (h : ∀ c ∈ cs.getLast?, isSpace c = false) : trimEnd cs = cs := by
  have hrev : trimStart cs.reverse = cs.reverse := trimStart_of_head fun c hc => h c (by simpa using hc)
  unfold trimStart at hrev
  rw [trimEnd, hrev, List.reverse_reverse]

/-- Nothing is trimmed where no blank stands at the ends. -/
theorem trim_of_ends (hhead : ∀ c ∈ cs.head?, isSpace c = false) (hlast : ∀ c ∈ cs.getLast?, isSpace c = false) :
    trim cs = cs := by
  rw [trim, trimStart_of_head hhead, trimEnd_of_getLast hlast]

theorem Solid.trim (h : Solid w) : trim w = w :=
  trim_of_ends (fun c hc => h.isSpace c (List.mem_of_mem_head? hc)) fun c hc => h.isSpace c (List.mem_of_getLast? hc)

/-! ## Words -/

theorem words_eq (cs : List Char) : words cs = match trimStart cs with
    | [] => []
    | c :: rest => (c :: rest.takeWhile (!isSpace ·)) :: words (rest.dropWhile (!isSpace ·)) := by
  rw [words]
  split <;> rename_i h <;> rw [h]

theorem words_nil : words [] = [] := by
  rw [words_eq]
  rfl

/-- Blanks in front do not count. -/
theorem words_cons_of_isSpace {c : Char} (h : isSpace c = true) (cs : List Char) : words (c :: cs) = words cs := by
  have htrim : trimStart (c :: cs) = trimStart cs := by simp [trimStart, h]
  rw [words_eq, htrim, ← words_eq]

/-- A word with nothing or a blank behind it is found. -/
theorem words_append (h : Solid w) {rest : List Char} (hrest : ∀ c ∈ rest.head?, isSpace c = true) :
    words (w ++ rest) = w :: words rest := by
  cases w with
  | nil => exact absurd rfl h.ne_nil
  | cons c w =>
    have hc : isSpace c = false := h.isSpace c List.mem_cons_self
    have hw : ∀ x ∈ w, (!isSpace x) = true := fun x hx => by rw [h.isSpace x (List.mem_cons_of_mem c hx)]; rfl
    have htake : rest.takeWhile (!isSpace ·) = [] ∧ rest.dropWhile (!isSpace ·) = rest := by
      cases rest with
      | nil => exact ⟨rfl, rfl⟩
      | cons x rest =>
        have hx := hrest x rfl
        simp [hx]
    have htrim : trimStart (c :: (w ++ rest)) = c :: (w ++ rest) := trimStart_of_head fun x hx => by
      cases hx
      exact hc
    rw [List.cons_append, words_eq, htrim]
    dsimp only
    rw [List.takeWhile_append_of_pos hw, List.dropWhile_append_of_pos hw, htake.1, htake.2, List.append_nil]

theorem words_solid (h : Solid w) : words w = [w] := by
  have happend : words (w ++ []) = w :: words [] := words_append h (by simp)
  rwa [List.append_nil, words_nil] at happend

/-- Two words with a blank between them. -/
theorem words_pair (hv : Solid v) (hw : Solid w) : words (v ++ ' ' :: w) = [v, w] := by
  rw [words_append hv (by simp; rfl), words_cons_of_isSpace rfl, words_solid hw]

/-! ## Lines -/

theorem lines_eq (cs : List Char) : lines cs = match cs.dropWhile (· != '\n') with
    | [] => [cs]
    | _ :: rest => cs.takeWhile (· != '\n') :: lines rest := by
  rw [lines]
  split <;> rename_i h <;> rw [h]

theorem lines_nil : lines [] = [[]] := by
  rw [lines_eq]
  rfl

theorem lines_append (h : '\n' ∉ cs) (rest : List Char) : lines (cs ++ '\n' :: rest) = cs :: lines rest := by
  have hpos : ∀ c ∈ cs, (c != '\n') = true := fun c hc => by
    rw [bne_iff_ne]
    exact fun hn => h (hn ▸ hc)
  rw [lines_eq, List.dropWhile_append_of_pos hpos, List.takeWhile_append_of_pos hpos]
  simp

/-- **Lines are found again.** Behind the last line feed there is an empty line. -/
theorem lines_flatMap {ls : List (List Char)} (h : ∀ l ∈ ls, '\n' ∉ l) :
    lines (ls.flatMap (· ++ ['\n'])) = ls ++ [[]] := by
  induction ls with
  | nil => exact lines_nil
  | cons l ls ih =>
    have hl := h l List.mem_cons_self
    rw [List.flatMap_cons, List.append_assoc, List.singleton_append, lines_append hl,
      ih fun l' hl' => h l' (List.mem_cons_of_mem l hl')]
    rfl

/-! ## Numbers -/

theorem isDigit_of_mem_toDigits {n : Nat} {c : Char} (h : c ∈ Nat.toDigits 10 n) : isDigit c = true := by
  have hall := digits?_toDigits n
  unfold digits? at hall
  split at hall
  · rename_i hdigits
    exact List.all_eq_true.1 hdigits.2 c h
  · cases hall

theorem isSpace_of_isDigit {c : Char} (h : isDigit c = true) : isSpace c = false := by
  have hrange : 48 ≤ c.toNat ∧ c.toNat ≤ 57 := by
    simpa [isDigit, Char.le_def, UInt32.le_iff_toNat_le] using h
  simp only [isSpace, Bool.or_eq_false_iff, Bool.and_eq_false_iff, decide_eq_false_iff_not, beq_eq_false_iff_ne]
  omega

/-- A natural number is written as one word. -/
theorem solid_toDigits (n : Nat) : Solid (Nat.toDigits 10 n) :=
  ⟨Nat.toDigits_ne_nil, fun _ hc => isSpace_of_isDigit (isDigit_of_mem_toDigits hc)⟩

/-- An integer is written as one word, which ends in a digit. -/
theorem solid_ofInt64 (x : Int64) : Solid (ofInt64 x).toList ∧ ∀ c ∈ (ofInt64 x).toList.getLast?, isDigit c = true := by
  have hdigits : ∀ n : Nat, ∀ c ∈ (Nat.toDigits 10 n).getLast?, isDigit c = true := fun n c hc =>
    isDigit_of_mem_toDigits (List.mem_of_getLast? hc)
  unfold ofInt64
  cases x.toInt with
  | ofNat n =>
    rw [toList_toString_ofNat]
    exact ⟨solid_toDigits n, hdigits n⟩
  | negSucc n =>
    have hsolid := solid_toDigits (n + 1)
    rw [toList_toString_negSucc]
    refine ⟨⟨by simp, fun c hc => ?_⟩, ?_⟩
    · rcases List.mem_cons.1 hc with rfl | hc
      · rfl
      · exact hsolid.isSpace c hc
    · rw [List.getLast?_cons_of_ne_nil hsolid.ne_nil]
      exact hdigits (n + 1)

/-- A natural number within the limit reads back. -/
theorem natural?_toDigits {n limit : Nat} (h : n ≤ limit) : natural? limit (Nat.toDigits 10 n) = some n := by
  have hd := digits?_toDigits n
  unfold natural?
  split
  · rename_i ds hds
    rw [hds, digits?_cons_of_not_isDigit _ (by decide)] at hd
    cases hd
  · simp [hd, h]

end Text

end Fool
