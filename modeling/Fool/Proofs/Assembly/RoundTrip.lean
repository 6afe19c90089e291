import Fool.Assembly.Reader
import Fool.Proofs.Assembly.Words
import Fool.Proofs.Codegen.Labels

/-!
# Reading what was written

The written form of code reads back as the code (`read_text`), with the size of memory if it is recorded, as long as
its labels can be told from what stands around them (`Writable`). The labels that code generation hands out are taken for
labels wherever they stand (`isLabel_of_named`).
-/

namespace Fool

namespace Assembly

open Text

/-- The text is one word, which does not end like a definition. -/
structure IsOperand (l : String) : Prop where
  solid : Solid l.toList
  last : ∀ c ∈ l.toList.getLast?, c ≠ ':'

/-- The text keeps to its line when a colon is put behind it: it does not begin a directive, and no blank stands at its
ends. It may be empty. -/
structure IsName (l : String) : Prop where
  point : ∀ c ∈ l.toList.head?, c ≠ '.'
  newline : '\n' ∉ l.toList
  first : ∀ c ∈ l.toList.head?, isSpace c = false
  last : ∀ c ∈ l.toList.getLast?, isSpace c = false

/-- The label of the instruction, if it has one, can be told from what stands around it. -/
def Writable : Instruction → Prop
  | .label l => IsName l
  | .pushLabel l => IsOperand l ∧ int64? l.toList = none
  | .jump l | .branch _ l => IsOperand l
  | _ => True

/-- The reader takes the text for a label, wherever it stands: it is one word, neither a number nor the beginning of a
directive, and does not end like a definition. -/
structure IsLabel (l : String) : Prop where
  operand : IsOperand l
  head : ∀ c ∈ l.toList.head?, c ≠ '.'
  not_number : int64? l.toList = none

theorem IsLabel.name {l : String} (h : IsLabel l) : IsName l :=
  ⟨h.head, h.operand.solid.newline_not_mem, fun c hc => h.operand.solid.isSpace c (List.mem_of_mem_head? hc),
    fun c hc => h.operand.solid.isSpace c (List.mem_of_getLast? hc)⟩

/-- An instruction with such labels can be written. -/
theorem writable_of_isLabel {i : Instruction} (h : ∀ l, i.target? = some l ∨ i.defined? = some l → IsLabel l) :
    Writable i := by
  cases i with
  | label l => exact (h l (Or.inr rfl)).name
  | pushLabel l => exact ⟨(h l (Or.inl rfl)).operand, (h l (Or.inl rfl)).not_number⟩
  | jump l => exact (h l (Or.inl rfl)).operand
  | branch on l => exact (h l (Or.inl rfl)).operand
  | _ => trivial

variable {m w l : String} {source : List Char} {make : List Char → Instruction} (line : Nat)

/-! ## Lines -/

/-- A line that is not blank and does not begin with a point holds code. -/
theorem readLine_eq_readCode (htrim : trim source = source) (hne : source ≠ [])
    (hhead : ∀ c ∈ source.head?, c ≠ '.') : readLine line source = (readCode line source).map .instruction := by
  unfold readLine
  rw [htrim]
  split
  · exact absurd rfl hne
  · exact absurd rfl (hhead _ rfl)
  · rfl

/-- A mnemonic with its operand is read. -/
theorem readLine_operand (hm : Solid m.toList) (hhead : ∀ c ∈ m.toList.head?, c ≠ '.') (hw : Solid w.toList)
    (hlast : ∀ c ∈ w.toList.getLast?, c ≠ ':') (hmake : withOperand? m = some make) :
    readLine line (m ++ " " ++ w).toList = .ok (.instruction (make w.toList)) := by
  have hsource : (m ++ " " ++ w).toList = m.toList ++ ' ' :: w.toList := by simp
  have hfirst : (m.toList ++ ' ' :: w.toList).head? = m.toList.head? := by
    rw [List.head?_append, Option.or_of_isSome (List.isSome_head?.2 hm.ne_nil)]
  have hend : (m.toList ++ ' ' :: w.toList).getLast? = w.toList.getLast? := by
    rw [List.getLast?_append, List.getLast?_cons_of_ne_nil hw.ne_nil,
      Option.or_of_isSome (by simp [hw.ne_nil])]
  have htrim : trim (m.toList ++ ' ' :: w.toList) = m.toList ++ ' ' :: w.toList := by
    refine trim_of_ends (fun c hc => ?_) fun c hc => ?_
    · exact hm.isSpace c (List.mem_of_mem_head? (hfirst ▸ hc))
    · exact hw.isSpace c (List.mem_of_getLast? (hend ▸ hc))
  have hcolon : ¬(m.toList ++ ' ' :: w.toList).getLast? = some ':' := fun h => hlast ':' (hend ▸ h) rfl
  rw [hsource, readLine_eq_readCode line htrim (by simp) fun c hc => hhead c (hfirst ▸ hc), readCode, if_neg hcolon,
    words_pair hm hw]
  dsimp only
  rw [readInstruction, String.ofList_toList, hmake]
  rfl

/-- A mnemonic alone is read. -/
theorem readLine_plain {i : Instruction} (hm : Solid m.toList) (hhead : ∀ c ∈ m.toList.head?, c ≠ '.')
    (hlast : ∀ c ∈ m.toList.getLast?, c ≠ ':') (hnone : withOperand? m = none) (hi : Instruction.plain? m = some i) :
    readLine line m.toList = .ok (.instruction i) := by
  have hcolon : ¬m.toList.getLast? = some ':' := fun h => hlast ':' h rfl
  rw [readLine_eq_readCode line hm.trim hm.ne_nil hhead, readCode, if_neg hcolon, words_solid hm]
  dsimp only
  rw [readInstruction, String.ofList_toList, hnone, hi]
  rfl

/-- The definition of a label is read. -/
theorem readLine_label line (hl : IsName l) : readLine line (l ++ ":").toList = .ok (.instruction (.label l)) := by
  have hsource : (l ++ ":").toList = l.toList ++ [':'] := by simp
  have hfirst : ∀ c ∈ (l.toList ++ [':']).head?, c ≠ '.' ∧ isSpace c = false := by
    intro c hc
    rw [List.head?_append] at hc
    cases hhead : l.toList.head? with
    | none =>
      rw [hhead] at hc
      cases hc
      decide
    | some c' =>
      rw [hhead] at hc
      cases hc
      exact ⟨hl.point _ hhead, hl.first _ hhead⟩
  have htrim : trim (l.toList ++ [':']) = l.toList ++ [':'] := by
    refine trim_of_ends (fun c hc => (hfirst c hc).2) fun c hc => ?_
    rw [List.getLast?_concat] at hc
    cases hc
    rfl
  rw [hsource, readLine_eq_readCode line htrim (by simp) fun c hc => (hfirst c hc).1, readCode,
    if_pos List.getLast?_concat, List.dropLast_concat, trim_of_ends hl.first hl.last, String.ofList_toList]
  rfl

/-- All mnemonics. -/
def mnemonics : List String :=
  ["push", "pop", "add", "sub", "mult", "div", "b", "beq", "bleq", "label", "lfp", "lra", "ltm", "lhp", "sfp", "sra",
    "stm", "shp", "cfp", "lw", "sw", "js", "print", "halt"]

theorem mnemonic_mem (i : Instruction) : i.mnemonic ∈ mnemonics := by
  cases i with
  | arith op => cases op <;> simp [Instruction.mnemonic, mnemonics]
  | branch on l => cases on <;> simp [Instruction.mnemonic, mnemonics]
  | load r => cases r <;> simp [Instruction.mnemonic, mnemonics]
  | store r => cases r <;> simp [Instruction.mnemonic, mnemonics]
  | _ => simp [Instruction.mnemonic, mnemonics]

/-- A mnemonic is a word which is neither the beginning of a directive nor the end of a definition. -/
theorem solid_mnemonic (i : Instruction) : Solid i.mnemonic.toList ∧ (∀ c ∈ i.mnemonic.toList.head?, c ≠ '.') ∧
    ∀ c ∈ i.mnemonic.toList.getLast?, c ≠ ':' := by
  have hall : ∀ m ∈ mnemonics, (!m.toList.isEmpty && m.toList.all fun c => !isSpace c) = true ∧
      m.toList.head? ≠ some '.' ∧ m.toList.getLast? ≠ some ':' := by decide
  obtain ⟨hsolid, hhead, hlast⟩ := hall _ (mnemonic_mem i)
  exact ⟨.of_all hsolid, fun c hc h => hhead (h ▸ hc), fun c hc h => hlast (h ▸ hc)⟩

/-- **The line of an instruction reads back as the instruction.** -/
theorem readLine_text {i : Instruction} (h : Writable i) :
    readLine line i.text.toList = .ok (.instruction i) := by
  obtain ⟨hm, hhead, hlast⟩ := solid_mnemonic i
  cases i with
  | push v =>
    obtain ⟨hv, hdigit⟩ := solid_ofInt64 v
    have hcolon : ∀ c ∈ (ofInt64 v).toList.getLast?, c ≠ ':' := fun c hc hn => by
      have := hdigit c hc
      rw [hn] at this
      cases this
    have hread := readLine_operand line hm hhead hv hcolon rfl
    rw [pushOperand, int64?_ofInt64] at hread
    exact hread
  | pushLabel l =>
    obtain ⟨hl, hnumber⟩ := h
    have hread := readLine_operand line hm hhead hl.solid hl.last rfl
    rw [pushOperand, hnumber, String.ofList_toList] at hread
    exact hread
  | jump l =>
    have hl : IsOperand l := h
    have hread := readLine_operand line hm hhead hl.solid hl.last rfl
    rw [String.ofList_toList] at hread
    exact hread
  | branch on l =>
    have hl : IsOperand l := h
    have hmake : withOperand? (Instruction.branch on l).mnemonic = some fun l => .branch on (String.ofList l) := by
      cases on <;> rfl
    have hread := readLine_operand line hm hhead hl.solid hl.last hmake
    rw [String.ofList_toList] at hread
    exact hread
  | label l => exact readLine_label line h
  | arith op => cases op <;> exact readLine_plain line hm hhead hlast rfl rfl
  | load r => cases r <;> exact readLine_plain line hm hhead hlast rfl rfl
  | store r => cases r <;> exact readLine_plain line hm hhead hlast rfl rfl
  | _ => exact readLine_plain line hm hhead hlast rfl rfl

/-! ## Texts -/

/-- The lines of code read back as the code. -/
theorem readLines_text {code : Code} (h : ∀ i ∈ code, Writable i) (memory : Option Nat) :
    readLines memory line (code.map (·.text.toList) ++ [[]]) = .ok ⟨memory, code⟩ := by
  induction code generalizing line with
  | nil => rfl
  | cons i code ih =>
    rw [List.map_cons, List.cons_append, readLines, readLine_text line (h i List.mem_cons_self)]
    dsimp only [bind, Except.bind]
    rw [ih (line + 1) fun j hj => h j (List.mem_cons_of_mem i hj)]
    rfl

/-- The directive for the size of memory. -/
theorem readLine_memory {n : Nat} (h : n ≤ maxMemorySize) :
    readLine line (".memory " ++ toString n).toList = .ok (.memory n) := by
  have hdigits : (toString n).toList = Nat.toDigits 10 n := Nat.toList_repr
  have hsource : (".memory " ++ toString n).toList = '.' :: ("memory".toList ++ ' ' :: Nat.toDigits 10 n) := by
    rw [String.toList_append, hdigits]
    rfl
  have hsolid := solid_toDigits n
  have hend : ('.' :: ("memory".toList ++ ' ' :: Nat.toDigits 10 n)).getLast? = (Nat.toDigits 10 n).getLast? := by
    rw [← List.cons_append, List.getLast?_append, List.getLast?_cons_of_ne_nil hsolid.ne_nil,
      Option.or_of_isSome (by simp [hsolid.ne_nil])]
  have htrim : trim ('.' :: ("memory".toList ++ ' ' :: Nat.toDigits 10 n)) =
      '.' :: ("memory".toList ++ ' ' :: Nat.toDigits 10 n) := by
    refine trim_of_ends (fun c hc => ?_) fun c hc => ?_
    · cases hc
      rfl
    · exact hsolid.isSpace c (List.mem_of_getLast? (hend ▸ hc))
  have hdirective : readDirective line ("memory".toList ++ ' ' :: Nat.toDigits 10 n) = .ok n := by
    unfold readDirective
    rw [words_pair (.of_all rfl) hsolid]
    dsimp only
    rw [natural?_toDigits h]
    rfl
  rw [hsource, readLine, htrim]
  show (readDirective line ("memory".toList ++ ' ' :: Nat.toDigits 10 n)).map Line.memory = _
  rw [hdirective]
  rfl

/-- The lines of the written form. -/
def textLines (a : Assembly) : List (List Char) :=
  (a.memorySize.toList.map fun n => (".memory " ++ toString n).toList) ++ a.instructions.map (·.text.toList)

theorem text_toList (a : Assembly) : a.text.toList = a.textLines.flatMap (· ++ ['\n']) := by
  rcases a with ⟨_ | n, code⟩ <;> simp [text, textLines, Assembly.line, String.toList_join, List.flatMap_map]

/-- An instruction is written on one line. -/
theorem newline_not_mem_text {i : Instruction} (h : Writable i) : '\n' ∉ i.text.toList := by
  have hm := (solid_mnemonic i).1.newline_not_mem
  cases i with
  | push v =>
    have hv := (solid_ofInt64 v).1.newline_not_mem
    simp [Instruction.text, hv]
  | pushLabel l =>
    have hl := h.1.solid.newline_not_mem
    simp [Instruction.text, hl]
  | jump l =>
    have hl := IsOperand.solid h |>.newline_not_mem
    simp [Instruction.text, hl]
  | branch on l =>
    have hl := IsOperand.solid h |>.newline_not_mem
    simp [Instruction.text, hl, hm]
  | label l =>
    have hl := IsName.newline h
    simp [Instruction.text, hl]
  | _ => exact hm

/-- **The written form reads back.** -/
theorem read_text {a : Assembly} (hcode : ∀ i ∈ a.instructions, Writable i) (hsize : ∀ n ∈ a.memorySize, n ≤ maxMemorySize) :
    read a.text = .ok a := by
  have hlines : ∀ l ∈ a.textLines, '\n' ∉ l := by
    intro l hl
    rcases List.mem_append.1 hl with hl | hl
    · obtain ⟨n, -, rfl⟩ := List.mem_map.1 hl
      simp [(solid_toDigits n).newline_not_mem]
    · obtain ⟨i, hi, rfl⟩ := List.mem_map.1 hl
      exact newline_not_mem_text (hcode i hi)
  rw [read, text_toList, lines_flatMap hlines]
  rcases a with ⟨_ | n, code⟩
  · exact readLines_text 1 hcode none
  · show readLines none 1 ((".memory " ++ toString n).toList :: (code.map (·.text.toList) ++ [[]])) = _
    rw [readLines, readLine_memory 1 (hsize n rfl)]
    exact readLines_text 2 hcode (some n)

/-! ## The labels of generated code -/

/-- A word that begins with a letter, with a number behind it. -/
theorem isLabel_numbered {c : Char} {cs : List Char} (hword : w.toList = c :: cs) (hw : Solid w.toList)
    (hpoint : c ≠ '.') (hsign : c ≠ '+' ∧ c ≠ '-') (hdigit : isDigit c = false) (n : Nat) :
    IsLabel (w ++ toString n) := by
  have hdigits : (toString n).toList = Nat.toDigits 10 n := Nat.toList_repr
  have hsolid := solid_toDigits n
  have htext : (w ++ toString n).toList = c :: (cs ++ Nat.toDigits 10 n) := by
    rw [String.toList_append, hdigits, hword, List.cons_append]
  refine ⟨⟨?_, ?_⟩, ?_, ?_⟩
  · rw [String.toList_append, hdigits]
    refine ⟨by simp [hw.ne_nil], fun x hx => ?_⟩
    rcases List.mem_append.1 hx with hx | hx
    · exact hw.isSpace x hx
    · exact hsolid.isSpace x hx
  · rw [String.toList_append, hdigits, List.getLast?_append, Option.or_of_isSome (by simp [hsolid.ne_nil])]
    intro x hx hcolon
    have := isDigit_of_mem_toDigits (List.mem_of_getLast? hx)
    rw [hcolon] at this
    cases this
  · rw [htext]
    intro x hx
    cases hx
    exact hpoint
  · have hnone : integer? (c :: (cs ++ Nat.toDigits 10 n)) = none := by
      unfold integer?
      split
      · rename_i h
        cases h
        exact absurd rfl hsign.1
      · rename_i h
        cases h
        exact absurd rfl hsign.2
      · rw [digits?_cons_of_not_isDigit _ hdigit]
        rfl
    rw [htext, int64?, hnone]
    rfl

/-- The labels that code generation hands out are taken for labels. -/
theorem isLabel_of_named {n : Nat} (h : l = LabelSupply.labelText n ∨ l = LabelSupply.functionText n) : IsLabel l := by
  rcases h with rfl | rfl
  · exact isLabel_numbered rfl (.of_all rfl) (by decide) (by decide) (by decide) n
  · exact isLabel_numbered rfl (.of_all rfl) (by decide) (by decide) (by decide) n

/-- Generated code can be written. -/
theorem writable_of_closed {code : Code} (h : code.Closed) : ∀ i ∈ code, Writable i := by
  refine fun i hi => writable_of_isLabel fun l hl => ?_
  have hdefined : l ∈ code.defined := by
    rcases hl with hl | hl
    · exact h.used l (List.mem_filterMap.2 ⟨i, hi, hl⟩)
    · exact List.mem_filterMap.2 ⟨i, hi, hl⟩
  obtain ⟨n, hn⟩ := h.named l hdefined
  exact isLabel_of_named hn

end Assembly

end Fool
