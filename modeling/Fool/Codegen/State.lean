import Fool.Codegen.Error
import Fool.Codegen.Label
import Fool.Machine.Instruction
import Fool.Scope.Entry

/-!
# What code generation holds

Code is generated piece by piece. The bodies of functions and methods become units of their own, which are kept
aside in the order in which they are finished; the code of an expression is handed back.
-/

namespace Fool

/-- Code of the machine. -/
abbrev Code := List Instruction

/-- The state of code generation. -/
structure Generator where
  supply : LabelSupply
  units : List Code
  inClass : Bool

/-- A step of code generation. -/
abbrev GenM := StateT Generator (Except CodegenError)

namespace Generator

/-- Nothing has been generated. -/
def start : Generator := ⟨.start, [], false⟩

/-- A new label inside a piece of code. -/
def freshLabel : GenM String := modifyGet fun g =>
  let (l, supply) := g.supply.freshLabel
  (l, { g with supply })

/-- A new label for an entry. -/
def freshFunction : GenM String := modifyGet fun g =>
  let (l, supply) := g.supply.freshFunction
  (l, { g with supply })

/-- Keeps a finished unit aside. -/
def addUnit (unit : Code) : GenM Unit := modify fun g => { g with units := g.units ++ [unit] }

/-- Says whether what follows is inside a class. -/
def setInClass (inClass : Bool) : GenM Unit := modify fun g => { g with inClass }

end Generator

/-! ## Pieces of code -/

namespace Code

/-- Moves the first free heap cell one up. -/
def bumpHeap : Code := [.load .hp, .push 1, .arith .add, .store .hp]

/-- Writes the topmost value into the first free heap cell. -/
def pushToHeap : Code := [.load .hp, .storeWord] ++ bumpHeap

/-- Puts a second copy of the topmost value on the stack. -/
def duplicate : Code := [.store .tm, .load .tm, .load .tm]

/-- Replaces an address by the value `offset` cells from it. -/
def loadAt (offset : Int) : Code := [.push (Int64.ofInt offset), .arith .add, .loadWord]

/-- Behind a jump to `onTrue`: gives 0, or 1 if the jump was made. -/
def truth (onTrue done : String) : Code :=
  [.push 0, .jump done, .label onTrue, .push 1, .label done]

end Code

end Fool
