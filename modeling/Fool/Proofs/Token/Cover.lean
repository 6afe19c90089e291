import Fool.Proofs.Parse.Stream
import Fool.Proofs.Token.Order
import Fool.Proofs.Token.Rules

/-!
# Reading covers the text

The answers of the lexer to a text, read until the end, cover the text (`Scans`): what they do not speak of is white space
and comments. The cursor carries its place along; the place of an answer is the one that the characters in front of it
determine (`Position.ofOffset`), line and column counted in 32 bits. One answer is what the rules cut from the front of the
text (`scans_next`); that all answers cover it follows by induction on the length of the text (`scans_readAll`). The spans
and the places are read off `Scans`. `readAll_covers` says it for every text.
-/

namespace Fool

/-! ## Places by offset -/

namespace Position

/-- The number of bytes of the UTF-8 form. -/
def bytes : List Char → Nat
  | [] => 0
  | c :: cs => c.utf8Size + bytes cs

/-- The line behind the beginning of a text: as many come before as it has line feeds. -/
def lineOf (front : List Char) : Nat := 1 + front.count '\n'

/-- The column there: as many come before as there are characters behind the last line feed. -/
def columnOf (front : List Char) : Nat := 1 + (front.reverse.takeWhile (· ≠ '\n')).length

/-- The place behind the beginning of a text. -/
def behind (front : List Char) : Position := ⟨.ofNat (lineOf front), .ofNat (columnOf front), bytes front⟩

/-- The characters of a text in front of an offset. -/
def front : List Char → Nat → List Char
  | [], _ => []
  | c :: cs, offset => if c.utf8Size ≤ offset then c :: front cs (offset - c.utf8Size) else []

/-- The place with this offset in a text. -/
def ofOffset (text : List Char) (offset : Nat) : Position := behind (front text offset)

variable {c : Char} {cs text : List Char}

theorem bytes_append (s t : List Char) : bytes (s ++ t) = bytes s + bytes t := by
  induction s with
  | nil => rw [List.nil_append, bytes, Nat.zero_add]
  | cons c s ih => rw [List.cons_append, bytes, bytes, ih, Nat.add_assoc]

theorem bytes_pos (h : text ≠ []) : 0 < bytes text := by
  obtain ⟨c, cs, rfl⟩ := List.exists_cons_of_ne_nil h
  exact Nat.add_pos_left c.utf8Size_pos _

theorem length_le_bytes (text : List Char) : text.length ≤ bytes text := by
  induction text with
  | nil => exact Nat.le_refl 0
  | cons c text ih =>
    have hpos := c.utf8Size_pos
    rw [List.length_cons, bytes]
    omega

theorem lineOf_snoc (text : List Char) (c : Char) : lineOf (text ++ [c]) = if c = '\n' then lineOf text + 1 else lineOf text := by
  unfold lineOf
  rw [List.count_append, List.count_singleton]
  by_cases h : c = '\n' <;> simp [h, Nat.add_assoc]

theorem columnOf_snoc (text : List Char) (c : Char) : columnOf (text ++ [c]) = if c = '\n' then 1 else columnOf text + 1 := by
  unfold columnOf
  rw [List.reverse_append, List.reverse_singleton, List.singleton_append]
  split
  · rename_i h
    rw [List.takeWhile_cons_of_neg (by simp [h]), List.length_nil]
  · rename_i h
    rw [List.takeWhile_cons_of_pos (by simpa using h), List.length_cons, Nat.add_assoc]

theorem behind_snoc (text : List Char) (c : Char) : (behind text).next c = behind (text ++ [c]) := by
  unfold next behind
  rw [bytes_append, lineOf_snoc, columnOf_snoc]
  split
  · exact congrArg (Position.mk · _ _) (UInt32.ofNat_add _ _).symm
  · exact congrArg (Position.mk _ · _) (UInt32.ofNat_add _ _).symm

/-- **The place carried along is the place behind the characters passed.** -/
theorem behind_after (text more : List Char) : (behind text).after more = behind (text ++ more) := by
  induction more generalizing text with
  | nil => rw [after_nil, List.append_nil]
  | cons c more ih => rw [after_cons, behind_snoc, ih, List.append_assoc, List.singleton_append]

theorem front_append (s t : List Char) : front (s ++ t) (bytes s) = s := by
  induction s with
  | nil =>
    cases t with
    | nil => rfl
    | cons c t => exact if_neg (Nat.not_le.2 c.utf8Size_pos)
  | cons c s ih =>
    rw [List.cons_append, front, bytes, if_pos (Nat.le_add_right _ _), Nat.add_sub_cancel_left, ih]

/-- A place is found again by its offset. -/
theorem ofOffset_behind (s t : List Char) : ofOffset (s ++ t) (behind s).offset = behind s :=
  congrArg behind (front_append s t)

theorem lineOf_le (front : List Char) : lineOf front ≤ bytes front + 1 := by
  have hcount : front.count '\n' ≤ front.length := List.count_le_length
  have hlength := length_le_bytes front
  unfold lineOf
  omega

theorem columnOf_le (front : List Char) : columnOf front ≤ bytes front + 1 := by
  have hcount := (List.takeWhile_sublist (· ≠ '\n') (l := front.reverse)).length_le
  have hlength := length_le_bytes front
  rw [List.length_reverse] at hcount
  unfold columnOf
  omega

/-- As far as 32 bits can count, what is noted of a place is the place. -/
theorem location_behind (h : bytes text + 1 < UInt32.size) : (behind text).location.line.toNat = lineOf text ∧
    (behind text).location.column.toNat = columnOf text ∧ (behind text).location.offset.toNat = bytes text := by
  have hnoted : ∀ {n : Nat}, n ≤ bytes text + 1 → (UInt32.ofNat n).toNat = n := fun hn =>
    UInt32.toNat_ofNat_of_lt (Nat.lt_of_le_of_lt hn h)
  exact ⟨hnoted (lineOf_le text), hnoted (columnOf_le text), hnoted (Nat.le_succ _)⟩

end Position

namespace Location

open Position

/-- Line and column are those that the offset has in the text. -/
def IsOf (text : List Char) (l : Location) : Prop :=
  l.line.toNat = lineOf (front text l.offset.toNat) ∧ l.column.toNat = columnOf (front text l.offset.toNat)

/-- As far as 32 bits can count, the place that is noted behind the beginning of a text is the one with that offset. -/
theorem isOf_behind {s t : List Char} (h : bytes s + 1 < UInt32.size) : (behind s).location.IsOf (s ++ t) := by
  obtain ⟨hline, hcolumn, hoffset⟩ := location_behind h
  unfold IsOf
  rw [hoffset, front_append]
  exact ⟨hline, hcolumn⟩

end Location

namespace Lexer

open Position
open Lookahead hiding behind

/-! ## Covering -/

/-- These are the answers to the rest of a text, the characters `front` of which have been passed. -/
inductive Scans : List Char → List Char → List (Except ParseError Token) → Prop
  | stop {front : List Char} : Scans front [] [.ok ⟨.endOfInput, behind front, bytes front⟩]
  | skip {front sep rest : List Char} {answers : List (Except ParseError Token)} : Separator sep →
      Scans (front ++ sep) rest answers → Scans front (sep ++ rest) answers
  | token {front word rest : List Char} {answers : List (Except ParseError Token)} {kind : TokenKind} :
      Cut word rest (.ok kind) → Scans (front ++ word) rest answers →
      Scans front (word ++ rest) (.ok ⟨kind, behind front, bytes (front ++ word)⟩ :: answers)
  | fault {front word rest : List Char} {answers : List (Except ParseError Token)} {cause : ParseError.Cause} :
      Cut word rest (.error cause) → Scans (front ++ word) rest answers →
      Scans front (word ++ rest) (.error ⟨cause, (behind front).location⟩ :: answers)

/-- The place of an answer. -/
def place : Except ParseError Token → Location
  | .ok t => t.location
  | .error e => e.location

variable {front word rest : List Char} {answers : List (Except ParseError Token)} {answer : Except ParseError Token}
  {reading : Except ParseError.Cause TokenKind} {t : Token}

theorem Spells.ne_nil {kind : TokenKind} (h : Spells word kind) : word ≠ [] := by
  cases h with
  | keyword k => cases k <;> decide
  | mark m => cases m <;> decide
  | number _ _ _ | identifier _ _ _ => exact List.cons_ne_nil _ _

/-- What is cut is not empty. -/
theorem Cut.ne_nil (h : Cut word rest reading) : word ≠ [] := by
  cases h with
  | token hspells _ _ => exact hspells.ne_nil
  | unexpected _ | outOfRange _ _ _ _ | unclosed _ => exact List.cons_ne_nil _ _

theorem Scans.offset_le (h : Scans front rest answers) (ht : .ok t ∈ answers) : bytes front ≤ t.place.offset := by
  induction h with
  | stop =>
    cases List.mem_singleton.1 ht
    exact Nat.le_refl _
  | skip _ _ ih => exact (Nat.le_add_right _ _).trans (bytes_append _ _ ▸ ih ht)
  | token _ _ ih =>
    rcases List.mem_cons.1 ht with heq | ht
    · cases heq
      exact Nat.le_refl _
    · exact (Nat.le_add_right _ _).trans (bytes_append _ _ ▸ ih ht)
  | fault _ _ ih =>
    rcases List.mem_cons.1 ht with heq | ht
    · cases heq
    · exact (Nat.le_add_right _ _).trans (bytes_append _ _ ▸ ih ht)

/-- **The spans of tokens are disjoint and in order.** -/
theorem Scans.pairwise (h : Scans front rest answers) :
    (tokens answers).Pairwise fun t u => t.stop ≤ u.place.offset := by
  induction h with
  | stop => exact List.pairwise_singleton _ _
  | skip _ _ ih => exact ih
  | token _ hrest ih =>
    refine List.pairwise_cons.2 ⟨fun u hu => ?_, ih⟩
    obtain ⟨answer, ha, hok⟩ := List.mem_filterMap.1 hu
    cases answer with
    | ok u' =>
      cases hok
      exact hrest.offset_le ha
    | error e => cases hok
  | fault _ _ ih => exact ih

/-- **The span of a token is not empty.** -/
theorem Scans.span (h : Scans front rest answers) (ht : .ok t ∈ answers) (hend : t.kind ≠ .endOfInput) :
    t.place.offset < t.stop := by
  induction h with
  | stop =>
    cases List.mem_singleton.1 ht
    exact absurd rfl hend
  | skip _ _ ih => exact ih ht
  | token hcut _ ih =>
    rcases List.mem_cons.1 ht with heq | ht
    · cases heq
      exact bytes_append _ _ ▸ Nat.lt_add_of_pos_right (bytes_pos hcut.ne_nil)
    · exact ih ht
  | fault _ _ ih =>
    rcases List.mem_cons.1 ht with heq | ht
    · cases heq
    · exact ih ht

/-- **The place of a token is the one that its offset has in the text.** -/
theorem Scans.place_eq (h : Scans front rest answers) (ht : .ok t ∈ answers) :
    t.place = ofOffset (front ++ rest) t.place.offset := by
  induction h with
  | stop =>
    cases List.mem_singleton.1 ht
    exact (ofOffset_behind _ _).symm
  | skip _ _ ih => exact List.append_assoc .. ▸ ih ht
  | token _ _ ih =>
    rcases List.mem_cons.1 ht with heq | ht
    · cases heq
      exact (ofOffset_behind _ _).symm
    · exact List.append_assoc .. ▸ ih ht
  | fault _ _ ih =>
    rcases List.mem_cons.1 ht with heq | ht
    · cases heq
    · exact List.append_assoc .. ▸ ih ht

/-- **What is noted of an answer is its place behind a beginning of the text.** -/
theorem Scans.place_behind (h : Scans front rest answers) (ha : answer ∈ answers) :
    ∃ more rest', rest = more ++ rest' ∧ place answer = (behind (front ++ more)).location := by
  induction h with
  | stop =>
    rw [List.mem_singleton.1 ha]
    exact ⟨[], [], rfl, by rw [List.append_nil]; rfl⟩
  | skip _ _ ih =>
    obtain ⟨more, rest', rfl, hmore⟩ := ih ha
    exact ⟨_, rest', (List.append_assoc ..).symm, by rw [hmore, List.append_assoc]⟩
  | token _ _ ih | fault _ _ ih =>
    rcases List.mem_cons.1 ha with rfl | ha
    · exact ⟨[], _, rfl, by rw [List.append_nil]; rfl⟩
    · obtain ⟨more, rest', rfl, hmore⟩ := ih ha
      exact ⟨_, rest', (List.append_assoc ..).symm, by rw [hmore, List.append_assoc]⟩

end Lexer

namespace Cursor

open Lexer Position
open Lookahead hiding behind

variable {c : Char} {cs front rest : List Char} {cur : Cursor}

/-! ## Reading -/

theorem next_of_end (h : cur.skipBlank.rest = []) : cur.next =
    (.ok ⟨.endOfInput, cur.skipBlank.place, cur.skipBlank.place.offset⟩, cur.skipBlank) := by
  simp only [next, h]

theorem next_of_rest (h : cur.skipBlank.rest = c :: cs) :
    cur.next = ofLexeme cur.skipBlank.place (lexeme c cs) := by
  simp only [next, h]

/-- **The next answer is what the rules cut from the text behind the separators.** -/
theorem scans_next (hend : (Cursor.mk rest (behind front)).skipBlank.rest ≠ []) :
    ∃ front' rest', (Cursor.mk rest (behind front)).next.2 = ⟨rest', behind front'⟩ ∧ ∀ answers,
      Scans front' rest' answers → Scans front rest ((Cursor.mk rest (behind front)).next.1 :: answers) := by
  obtain ⟨sep, hsep, hrest, hplace⟩ := skipBlank_eq ⟨rest, behind front⟩
  rw [behind_after] at hplace
  obtain ⟨c, cs, hcs⟩ := List.exists_cons_of_ne_nil hend
  obtain ⟨hblank, hcomment⟩ := skipBlank_rest hcs
  have hcut := lexeme_cut hblank hcomment
  have happend := lexeme_append c cs
  have hnext : (Cursor.mk rest (behind front)).next = ofLexeme (behind (front ++ sep)) (lexeme c cs) := by
    rw [next_of_rest hcs, hplace]
  obtain rfl : rest = sep ++ ((lexeme c cs).text ++ (lexeme c cs).rest) := by
    rw [happend, ← hcs]
    exact hrest
  rw [hnext]
  generalize lexeme c cs = x at hcut
  obtain ⟨text, rest, reading⟩ := x
  refine ⟨front ++ sep ++ text, rest, ?_, fun answers h => .skip hsep ?_⟩
  · cases reading <;> exact congrArg (Cursor.mk rest) (behind_after _ _)
  · cases reading with
    | ok kind =>
      change Scans _ _ (.ok ⟨kind, behind (front ++ sep), ((behind (front ++ sep)).after text).offset⟩ :: answers)
      rw [behind_after]
      exact .token hcut h
    | error cause => exact .fault hcut h

/-- **The answers to a text cover it.** -/
theorem scans_readAll (front rest : List Char) : Scans front rest (Cursor.mk rest (behind front)).readAll := by
  induction hlen : rest.length using Nat.strongRecOn generalizing front rest with
  | _ n ih =>
    by_cases hend : (Cursor.mk rest (behind front)).skipBlank.rest = []
    · obtain ⟨sep, hsep, hrest, hplace⟩ := skipBlank_eq ⟨rest, behind front⟩
      rw [hend] at hrest
      obtain rfl : rest = sep ++ [] := hrest
      rw [readAll_of_end hend, next_of_end hend, hplace, behind_after]
      exact .skip hsep .stop
    · have hlt := next_length_lt _ hend
      obtain ⟨front', rest', hnext, hscans⟩ := scans_next hend
      rw [readAll_of_not_end hend, hnext]
      rw [hnext] at hlt
      exact hscans _ (ih _ (hlen ▸ hlt) front' rest' rfl)

/-- Behind the end is the end. -/
theorem answers_of_end (h : cur.skipBlank.rest = []) (n : Nat) :
    Lookahead.answers next n cur = List.replicate n cur.next.1 := by
  induction n generalizing cur with
  | zero => rfl
  | succ n ih =>
    have hagain : cur.skipBlank.skipBlank = cur.skipBlank := by
      generalize cur.skipBlank = skipped at h
      obtain ⟨rest, l⟩ := skipped
      obtain rfl : rest = [] := h
      rw [skipBlank]
    have hnext : cur.next.2.next.1 = cur.next.1 := by
      rw [next_of_end h, next_of_end (hagain.symm ▸ h), hagain]
    have hend : cur.next.2.skipBlank.rest = [] := by
      rw [next_of_end h, hagain, h]
    rw [Lookahead.answers, ih hend, hnext, List.replicate_succ]

/-- **All answers of a text are the calls up to its end, and every further call gives the end.** -/
theorem readAll_eq (cur : Cursor) : ∃ read stop, cur.readAll = read ++ [.ok stop] ∧ stop.kind = .endOfInput ∧
    (∀ t, .ok t ∈ read → t.kind ≠ .endOfInput) ∧
    ∀ n, Lookahead.answers next (read.length + n) cur = read ++ List.replicate n (.ok stop) := by
  induction hlen : cur.rest.length using Nat.strongRecOn generalizing cur with
  | _ k ih =>
    by_cases hend : cur.skipBlank.rest = []
    · refine ⟨[], ⟨.endOfInput, cur.skipBlank.place, cur.skipBlank.place.offset⟩, ?_, rfl, by simp, fun n => ?_⟩
      · rw [readAll_of_end hend, next_of_end hend]
        rfl
      · rw [List.length_nil, Nat.zero_add, answers_of_end hend, next_of_end hend]
        rfl
    · obtain ⟨read, stop, hread, hstop, hkinds, hcalls⟩ := ih _ (hlen ▸ cur.next_length_lt hend) cur.next.2 rfl
      refine ⟨cur.next.1 :: read, stop, ?_, hstop, fun t ht => ?_, fun n => ?_⟩
      · rw [readAll_of_not_end hend, hread, List.cons_append]
      · rcases List.mem_cons.1 ht with heq | ht
        · exact fun hkind => hend ((next_kind heq.symm).1 hkind)
        · exact hkinds t ht
      · rw [List.length_cons, Nat.succ_add, Lookahead.answers, hcalls, List.cons_append]

/-- **Reading loses nothing and places everything.** Calls come to the end of every text, after no more answers than it
has characters, and give the end for ever. The answers cover the text: between the tokens stand only white space,
comments and the texts of the faults reported there, each token is a longest match. Its span is not empty, and the spans
are in order. Line and column of each answer are those that its offset has in the text, counted in 32 bits; in a text in
which 32 bits suffice they are just those. -/
theorem readAll_covers (text : String) : ∃ read stop, (ofString text).readAll = read ++ [.ok stop] ∧
    read.length ≤ text.toList.length ∧ stop.kind = .endOfInput ∧ (∀ t, .ok t ∈ read → t.kind ≠ .endOfInput) ∧
    (∀ n, Lookahead.answers next (read.length + n) (ofString text) = read ++ List.replicate n (.ok stop)) ∧
    (∀ t, .ok t ∈ read → t.place.offset < t.stop) ∧
    (tokens (read ++ [.ok stop])).Pairwise (fun t u => t.stop ≤ u.place.offset) ∧
    Scans [] text.toList (read ++ [.ok stop]) ∧
    (∀ t, .ok t ∈ read ++ [.ok stop] → t.place = ofOffset text.toList t.place.offset) ∧
    (∀ e, .error e ∈ read → ∃ offset, e.location = (ofOffset text.toList offset).location) ∧
    (bytes text.toList + 1 < UInt32.size → ∀ answer ∈ read ++ [.ok stop], (Lexer.place answer).IsOf text.toList) := by
  obtain ⟨read, stop, hread, hstop, hkinds, hcalls⟩ := readAll_eq (ofString text)
  have hlen : read.length + 1 ≤ text.toList.length + 1 := by
    have hle := length_readAll_le (ofString text)
    rwa [hread, List.length_append] at hle
  have hscans : Scans [] text.toList (read ++ [.ok stop]) := hread ▸ scans_readAll [] text.toList
  refine ⟨read, stop, hread, Nat.le_of_succ_le_succ hlen, hstop, hkinds, hcalls,
    fun t ht => hscans.span (List.mem_append_left _ ht) (hkinds t ht), hscans.pairwise, hscans,
    fun _ ht => hscans.place_eq ht, fun e he => ?_, fun hbytes answer ha => ?_⟩
  · obtain ⟨more, rest', htext, hplace⟩ := hscans.place_behind (List.mem_append_left _ he)
    refine ⟨(behind more).offset, ?_⟩
    rw [htext, ofOffset_behind]
    exact hplace
  · obtain ⟨more, rest', htext, hplace⟩ := hscans.place_behind ha
    rw [htext, bytes_append] at hbytes
    rw [hplace, htext]
    exact Location.isOf_behind (Nat.lt_of_le_of_lt (Nat.add_le_add_right (Nat.le_add_right ..) 1) hbytes)

end Cursor

end Fool
