import Fool.Assembly.Basic
import Fool.Text.Blank

/-!
# Reading assembly

Each line is blank, a directive (it begins with a point), the definition of a label (it ends with a colon) or an
instruction. Blanks around and between the words do not count. The only directive is `.memory N`, and it may stand
once, anywhere.
-/

namespace Fool

namespace Assembly

/-- The largest size of memory that can be recorded. -/
def maxMemorySize : Nat := UInt64.size - 1

/-- What a line says. -/
inductive Line where
  | blank
  | memory (size : Nat)
  | instruction (i : Instruction)

/-- Reads a directive without its point. -/
def readDirective (line : Nat) (directive : List Char) : Except AsmError Nat :=
  match Text.words directive with
  | [name, size] =>
    match name == "memory".toList, Text.natural? maxMemorySize size with
    | true, some n => .ok n
    | _, _ => invalid
  | _ => invalid
where
  /-- The directive is refused as a whole. -/
  invalid : Except AsmError Nat := .error (.invalidDirective line (String.ofList ('.' :: directive)))

/-- The operand of `push`: a number if it reads as one, else a label. -/
def pushOperand (operand : List Char) : Instruction :=
  match Text.int64? operand with
  | some v => .push v
  | none => .pushLabel (String.ofList operand)

/-- The instructions that need an operand, by mnemonic. -/
def withOperand? (mnemonic : String) : Option (List Char → Instruction) :=
  match mnemonic with
  | "push" => some pushOperand
  | "b" => some fun l => .jump (String.ofList l)
  | "beq" => some fun l => .branch .equal (String.ofList l)
  | "bleq" => some fun l => .branch .lessEqual (String.ofList l)
  | _ => none

/-- Reads an instruction from its words. -/
def readInstruction (line : Nat) (mnemonic : String) (operands : List (List Char)) : Except AsmError Instruction :=
  match operands with
  | _ :: extra :: _ => .error (.unexpectedOperand line (String.ofList extra))
  | [operand] =>
    match withOperand? mnemonic with
    | some make => .ok (make operand)
    | none => .error (.unexpectedOperand line (String.ofList operand))
  | [] =>
    match withOperand? mnemonic, Instruction.plain? mnemonic with
    | some _, _ => .error (.missingOperand line mnemonic)
    | none, some i => .ok i
    | none, none => .error (.unknownInstruction line mnemonic)

/-- Reads a line that is neither blank nor a directive. -/
def readCode (line : Nat) (source : List Char) : Except AsmError Instruction :=
  if source.getLast? = some ':' then
    .ok (.label (String.ofList (Text.trim source.dropLast)))
  else
    match Text.words source with
    | [] => .error (.unknownInstruction line "")
    | mnemonic :: operands => readInstruction line (String.ofList mnemonic) operands

/-- Reads a line. -/
def readLine (line : Nat) (raw : List Char) : Except AsmError Line :=
  match Text.trim raw with
  | [] => .ok .blank
  | '.' :: directive => (readDirective line directive).map .memory
  | source => (readCode line source).map .instruction

/-- Reads lines from number `line` on, `memory` being the size recorded so far. -/
def readLines (memory : Option Nat) (line : Nat) : List (List Char) → Except AsmError Assembly
  | [] => .ok ⟨memory, []⟩
  | raw :: rest => do
    match ← readLine line raw with
    | .blank => readLines memory (line + 1) rest
    | .memory n =>
      if memory.isSome then
        .error (.invalidDirective line (String.ofList (Text.trim raw)))
      else
        readLines (some n) (line + 1) rest
    | .instruction i =>
      let a ← readLines memory (line + 1) rest
      return { a with instructions := i :: a.instructions }

/-- Reads the written form. -/
def read (text : String) : Except AsmError Assembly := readLines none 1 (Text.lines text.toList)

end Assembly

end Fool
