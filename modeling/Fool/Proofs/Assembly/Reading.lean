import Mathlib.Data.List.TakeWhile
import Fool.Proofs.Assembly.RoundTrip

/-!
# What can be written and read again

`read_text` gives code back whose instructions are `Writable`. There is no other such code, for whatever is read is
writable (`writable_of_read`): the words of an operand have no blanks, the label of a definition is what is left of a
line when its ends are trimmed. Hence the written form reads back just if the code is writable, and writing what has
been read and reading it again changes nothing (`read_text_iff`).
-/

namespace Fool

namespace Text

variable {cs w : List Char} {c : Char}

/-! ## What is cut out of a text -/

theorem head?_trimStart (h : (trimStart cs).head? = some c) : isSpace c = false := by
  have hne : trimStart cs ≠ [] := by
    intro hnil
    rw [hnil] at h
    cases h
  have hhead := List.head_dropWhile_not isSpace hne
  rw [List.head?_eq_some_head hne] at h
  cases h
  exact hhead

theorem trimEnd_isPrefix (cs : List Char) : trimEnd cs <+: cs := by
  have hsuffix := List.reverse_prefix.2 (List.dropWhile_suffix (l := cs.reverse) isSpace)
  rwa [List.reverse_reverse] at hsuffix

/-- No blank is left at the beginning. -/
theorem head?_trim (h : (trim cs).head? = some c) : isSpace c = false := by
  obtain ⟨rest, hrest⟩ := trimEnd_isPrefix (trimStart cs)
  have hstart : (trimStart cs).head? = some c := by
    rw [← hrest, List.head?_append]
    exact Option.or_eq_some_iff.2 (.inl h)
  exact head?_trimStart hstart

/-- No blank is left at the end. -/
theorem getLast?_trim (h : (trim cs).getLast? = some c) : isSpace c = false := by
  rw [trim, trimEnd, List.getLast?_reverse] at h
  exact head?_trimStart h

theorem trim_sublist (cs : List Char) : (trim cs).Sublist cs :=
  (trimEnd_isPrefix _).sublist.trans (List.dropWhile_sublist _)

/-- Words have no blanks. -/
theorem solid_of_mem_words (h : w ∈ words cs) : Solid w := by
  induction cs using words.induct with
  | case1 cs htrim =>
    rw [words_eq, htrim] at h
    cases h
  | case2 cs c rest htrim ih =>
    rw [words_eq, htrim] at h
    rcases List.mem_cons.1 h with rfl | h
    · refine ⟨List.cons_ne_nil _ _, fun x hx => ?_⟩
      rcases List.mem_cons.1 hx with rfl | hx
      · exact head?_trimStart (congrArg List.head? htrim)
      · simpa using List.mem_takeWhile_imp hx
    · exact ih h

/-- The last word ends where the text does, if no blank stands there. -/
theorem getLast?_words (h : cs.getLast? = some c) (hc : isSpace c = false) :
    ∃ w, (words cs).getLast? = some w ∧ w.getLast? = some c := by
  induction cs using words.induct with
  | case1 cs htrim =>
    have hspace := List.dropWhile_eq_nil_iff.1 htrim c (List.mem_of_getLast? h)
    rw [hc] at hspace
    cases hspace
  | case2 cs first rest htrim ih =>
    obtain ⟨blanks, hblanks⟩ := List.dropWhile_suffix (l := cs) isSpace
    change blanks ++ trimStart cs = cs at hblanks
    rw [← hblanks, htrim, List.getLast?_append_of_ne_nil _ (List.cons_ne_nil _ _)] at h
    have hsplit : rest.takeWhile (!isSpace ·) ++ rest.dropWhile (!isSpace ·) = rest := List.takeWhile_append_dropWhile
    rw [words_eq, htrim]
    dsimp only
    cases hbehind : rest.dropWhile (!isSpace ·) with
    | nil =>
      rw [hbehind, List.append_nil] at hsplit
      rw [words_nil, hsplit]
      exact ⟨_, rfl, h⟩
    | cons x more =>
      rw [← hsplit, hbehind, ← List.cons_append, List.getLast?_append_of_ne_nil _ (List.cons_ne_nil _ _), ← hbehind] at h
      obtain ⟨w, hw, hlast⟩ := ih h
      rw [hbehind] at hw
      exact ⟨w, by rw [List.getLast?_cons, hw]; rfl, hlast⟩

/-- Lines are cut at line feeds. -/
theorem newline_not_mem_of_lines (h : w ∈ lines cs) : '\n' ∉ w := by
  induction cs using lines.induct with
  | case1 cs hdrop =>
    rw [lines_eq, hdrop] at h
    rcases List.mem_singleton.1 h with rfl
    intro hn
    have := List.dropWhile_eq_nil_iff.1 hdrop _ hn
    simp at this
  | case2 cs c rest hdrop ih =>
    rw [lines_eq, hdrop] at h
    rcases List.mem_cons.1 h with rfl | h
    · intro hn
      simpa using List.mem_takeWhile_imp hn
    · exact ih h

end Text

namespace Assembly

open Text

/-! ## What is read -/

variable {line : Nat} {raw source w : List Char} {i : Instruction} {a : Assembly}

/-- Code stands in lines that, without the blanks at their ends, are not empty and do not begin with a point. -/
theorem readCode_of_readLine (h : readLine line raw = .ok (.instruction i)) :
    readCode line (trim raw) = .ok i ∧ trim raw ≠ [] ∧ ∀ c ∈ (trim raw).head?, c ≠ '.' := by
  unfold readLine at h
  split at h
  · cases h
  · cases hread : readDirective line ‹_› with
    | error e =>
      rw [hread] at h
      cases h
    | ok n =>
      rw [hread] at h
      cases h
  · rename_i hnil hpoint
    refine ⟨?_, hnil, fun c hc hcolon => ?_⟩
    · cases hread : readCode line (trim raw) with
      | error e =>
        rw [hread] at h
        cases h
      | ok j =>
        rw [hread] at h
        cases h
        rfl
    · obtain ⟨rest, hrest⟩ := List.head?_eq_some_iff.1 hc
      exact hpoint rest (hcolon ▸ hrest)

/-- The label of a definition: a line without its colon, and without the blanks in front of the colon. -/
theorem isName_trim (hnewline : '\n' ∉ source) (hhead : ∀ c ∈ source.head?, isSpace c = false ∧ c ≠ '.')
    (hcolon : source.getLast? = some ':') : IsName (String.ofList (trim source.dropLast)) := by
  have hfirst : ∀ c ∈ source.dropLast.head?, isSpace c = false ∧ c ≠ '.' := by
    intro c hc
    refine hhead c ?_
    rw [← List.dropLast_append_getLast? _ hcolon, List.head?_append]
    exact Option.or_eq_some_iff.2 (.inl hc)
  have hstart : trimStart source.dropLast = source.dropLast := trimStart_of_head fun c hc => (hfirst c hc).1
  obtain ⟨rest, hrest⟩ := trimEnd_isPrefix source.dropLast
  refine ⟨fun c hc => ?_, fun hn => ?_, fun c hc => ?_, fun c hc => ?_⟩
  · rw [String.toList_ofList, trim, hstart] at hc
    refine (hfirst c ?_).2
    rw [← hrest, List.head?_append]
    exact Option.or_eq_some_iff.2 (.inl hc)
  · rw [String.toList_ofList] at hn
    exact hnewline ((List.dropLast_sublist source).subset ((trim_sublist _).subset hn))
  · rw [String.toList_ofList] at hc
    exact head?_trim hc
  · rw [String.toList_ofList] at hc
    exact getLast?_trim hc

/-- What a mnemonic makes of its operand can be written. -/
theorem writable_of_withOperand {m : String} {make : List Char → Instruction} (hmake : withOperand? m = some make)
    (hw : IsOperand (String.ofList w)) : Writable (make w) := by
  unfold withOperand? at hmake
  split at hmake <;> cases hmake
  · unfold pushOperand
    split
    · trivial
    · rename_i hnumber
      exact ⟨hw, by rwa [String.toList_ofList]⟩
  all_goals exact hw

/-- A mnemonic that is read without an operand stands for an instruction without a label. -/
theorem writable_of_plain {m : String} (h : Instruction.plain? m = some i) : Writable i := by
  have hall : ∀ j ∈ Instruction.plain, Writable j := by simp [Instruction.plain, Writable]
  exact hall i (List.mem_of_find?_eq_some h)

/-- **Code that is read can be written.** -/
theorem writable_of_readLine (hnewline : '\n' ∉ raw) (h : readLine line raw = .ok (.instruction i)) : Writable i := by
  obtain ⟨hread, hne, hhead⟩ := readCode_of_readLine h
  unfold readCode at hread
  split at hread
  · rename_i hcolon
    cases hread
    exact isName_trim (fun hn => hnewline ((trim_sublist raw).subset hn)) (fun c hc => ⟨head?_trim hc, hhead c hc⟩)
      hcolon
  · rename_i hcolon
    obtain ⟨c, hc⟩ := Option.isSome_iff_exists.1 (List.getLast?_isSome.2 hne)
    obtain ⟨last, hlast, hend⟩ := getLast?_words hc (getLast?_trim hc)
    have hsolid : Solid last := solid_of_mem_words (List.mem_of_getLast? hlast)
    split at hread
    · cases hread
    · rename_i mnemonic operands hwords
      rw [hwords] at hlast
      unfold readInstruction at hread
      split at hread
      · cases hread
      · -- The operand is the last word, and so it ends where the line does.
        rename_i operand
        obtain rfl : operand = last := by simpa using hlast
        split at hread
        · rename_i make hmake
          cases hread
          refine writable_of_withOperand hmake ⟨by rwa [String.toList_ofList], fun x hx hx' => ?_⟩
          rw [String.toList_ofList, hend] at hx
          cases hx
          exact hcolon (hx' ▸ hc)
        · cases hread
      · split at hread
        · cases hread
        · rename_i hplain
          cases hread
          exact writable_of_plain hplain
        · cases hread

theorem natural?_le {limit n : Nat} {cs : List Char} (h : natural? limit cs = some n) : n ≤ limit := by
  unfold natural? at h
  exact of_decide_eq_true (Option.filter_eq_some_iff.1 h).2

/-- A size of memory that is read can be written. -/
theorem le_of_readLine {n : Nat} (h : readLine line raw = .ok (.memory n)) : n ≤ maxMemorySize := by
  unfold readLine at h
  split at h
  · cases h
  · rename_i directive _
    unfold readDirective at h
    split at h
    · split at h
      · rename_i hsize
        cases h
        exact natural?_le hsize
      · cases h
    · cases h
  · cases hread : readCode line (trim raw) with
    | error e =>
      rw [hread] at h
      cases h
    | ok j =>
      rw [hread] at h
      cases h

/-- What is read from lines can be written, with the size of memory. -/
theorem writable_of_readLines {memory : Option Nat} {ls : List (List Char)} (hnewline : ∀ l ∈ ls, '\n' ∉ l)
    (hmemory : ∀ n ∈ memory, n ≤ maxMemorySize) (h : readLines memory line ls = .ok a) :
    (∀ i ∈ a.instructions, Writable i) ∧ ∀ n ∈ a.memorySize, n ≤ maxMemorySize := by
  induction ls generalizing memory line a with
  | nil =>
    cases h
    exact ⟨fun i hi => absurd hi List.not_mem_nil, hmemory⟩
  | cons raw rest ih =>
    have hrest : ∀ l ∈ rest, '\n' ∉ l := fun l hl => hnewline l (List.mem_cons_of_mem raw hl)
    rw [readLines] at h
    rcases hread : readLine line raw with e | (_ | n | i) <;> rw [hread] at h
    · cases h
    · exact ih hrest hmemory h
    · change (if memory.isSome then _ else _) = _ at h
      split at h
      · cases h
      · refine ih hrest (fun m hm => ?_) h
        cases hm
        exact le_of_readLine hread
    · change (readLines memory (line + 1) rest >>= fun b => _) = _ at h
      rcases hb : readLines memory (line + 1) rest with e | b <;> rw [hb] at h
      · cases h
      cases h
      obtain ⟨hcode, hsize⟩ := ih hrest hmemory hb
      refine ⟨fun j hj => ?_, hsize⟩
      rcases List.mem_cons.1 hj with rfl | hj
      · exact writable_of_readLine (hnewline raw List.mem_cons_self) hread
      · exact hcode j hj

theorem writable_of_read {text : String} (h : read text = .ok a) :
    (∀ i ∈ a.instructions, Writable i) ∧ ∀ n ∈ a.memorySize, n ≤ maxMemorySize :=
  writable_of_readLines (fun _ hl => newline_not_mem_of_lines hl) (by rintro n ⟨⟩) h

/-- **The written form reads back just if the code can be written.** A size of memory has to be one that can be
recorded. Whatever is read can be written, and reads back when it is. -/
theorem read_text_iff :
    (∀ a : Assembly, read a.text = .ok a ↔
      (∀ n ∈ a.memorySize, n ≤ maxMemorySize) ∧ ∀ i ∈ a.instructions, Writable i) ∧
    ∀ (text : String) (a : Assembly), read text = .ok a →
      read a.text = .ok a ∧ (∀ n ∈ a.memorySize, n ≤ maxMemorySize) ∧ ∀ i ∈ a.instructions, Writable i := by
  refine ⟨fun a => ⟨fun h => ?_, fun ⟨hsize, hcode⟩ => read_text hcode hsize⟩, fun text a h => ?_⟩
  · exact (writable_of_read h).symm
  · obtain ⟨hcode, hsize⟩ := writable_of_read h
    exact ⟨read_text hcode hsize, hsize, hcode⟩

/-- A size that stands between the instructions, signed, and with blanks of several kinds: it is written in front. -/
theorem read_text_iff_between :
    read " a b\t:\r\n.memory  +5\n\n push +07" = .ok ⟨some 5, [.label "a b", .push 7]⟩ ∧
      (⟨some 5, [.label "a b", .push 7]⟩ : Assembly).text = ".memory 5\na b:\npush 7\n" ∧
      read ".memory 5\na b:\npush 7\n" = .ok ⟨some 5, [.label "a b", .push 7]⟩ := by
  have hread : read " a b\t:\r\n.memory  +5\n\n push +07" = .ok ⟨some 5, [.label "a b", .push 7]⟩ := by
    decide +kernel
  exact ⟨hread, rfl, (read_text_iff.2 _ _ hread).1⟩

end Assembly

end Fool
