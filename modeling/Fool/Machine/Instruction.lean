import Fool.Text.Decimal

/-!
# Instructions of the stack machine

The machine has a stack that grows down from the top of memory, a heap below it, and four registers. An instruction
is written as its mnemonic, then its operand if it has one; the definition of a label as the label and a colon.
-/

namespace Fool

/-- The arithmetic operations on the two topmost values. -/
inductive Arith where
  | add | sub | mul | div
deriving DecidableEq, Repr

/-- The comparisons of a conditional jump. -/
inductive Comparison where
  | equal | lessEqual
deriving DecidableEq, Repr

/-- The registers: of the frame, of the return address, for temporary values, and of the first free heap cell. -/
inductive Register where
  | fp | ra | tm | hp
deriving DecidableEq, Repr

/-- One instruction. -/
inductive Instruction where
  | push (value : Int64)
  | pushLabel (label : String)
  | pop
  | arith (op : Arith)
  | jump (label : String)
  | branch (on : Comparison) (label : String)
  | label (name : String)
  | load (r : Register)
  | store (r : Register)
  | copyFp
  | loadWord
  | storeWord
  | jumpSub
  | print
  | halt
deriving DecidableEq, Repr

namespace Instruction

/-- The first word of the written form. -/
def mnemonic : Instruction → String
  | push _ | pushLabel _ => "push"
  | pop => "pop"
  | arith .add => "add"
  | arith .sub => "sub"
  | arith .mul => "mult"
  | arith .div => "div"
  | jump _ => "b"
  | branch .equal _ => "beq"
  | branch .lessEqual _ => "bleq"
  | label _ => "label"
  | load .fp => "lfp"
  | load .ra => "lra"
  | load .tm => "ltm"
  | load .hp => "lhp"
  | store .fp => "sfp"
  | store .ra => "sra"
  | store .tm => "stm"
  | store .hp => "shp"
  | copyFp => "cfp"
  | loadWord => "lw"
  | storeWord => "sw"
  | jumpSub => "js"
  | print => "print"
  | halt => "halt"

/-- The label to which an instruction refers. The definition of a label refers to none. -/
def target? : Instruction → Option String
  | pushLabel l | jump l | branch _ l => some l
  | _ => none

/-- The label that an instruction defines. -/
def defined? : Instruction → Option String
  | label l => some l
  | _ => none

/-- The written form. -/
def text (i : Instruction) : String :=
  match i with
  | push v => "push " ++ Text.ofInt64 v
  | pushLabel l => "push " ++ l
  | jump l => "b " ++ l
  | branch _ l => i.mnemonic ++ " " ++ l
  | label l => l ++ ":"
  | _ => i.mnemonic

/-- The instructions that have no operand. -/
def plain : List Instruction :=
  [.pop, .arith .add, .arith .sub, .arith .mul, .arith .div, .load .fp, .store .fp, .copyFp, .load .ra, .store .ra,
    .load .tm, .store .tm, .load .hp, .store .hp, .loadWord, .storeWord, .jumpSub, .print, .halt]

/-- The instruction without operand that has this mnemonic. -/
def plain? (word : String) : Option Instruction := plain.find? fun i => i.mnemonic == word

end Instruction

end Fool
