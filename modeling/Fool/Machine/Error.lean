import Fool.Assembly.Error

/-!
# Faults of the machine

Why a run ends without an answer. A fault of an instruction names the address of that instruction.
-/

namespace Fool

/-- Why a run ends without an answer. -/
inductive MachineError where
  | divisionByZero (ip : Nat)
  | invalidAddress (address : Int64) (ip : Nat)
  | invalidJump (target : Int64) (ip : Nat)
  | stackOverflow (ip : Nat)
  | emptyStack (ip : Nat)
  | stepLimit (limit : Nat)
  /-- The program could not be loaded. -/
  | load (fault : AsmError)
deriving DecidableEq, Repr

namespace MachineError

/-- A message about the instruction at an address. -/
def atInstruction (text : String) (ip : Nat) : String := text ++ " at instruction " ++ toString ip

/-- The wording of a fault. -/
def message : MachineError → String
  | divisionByZero ip => atInstruction "division by zero" ip
  | invalidAddress a ip => atInstruction ("address " ++ toString a.toInt ++ " is outside memory") ip
  | invalidJump t ip => atInstruction ("jump target " ++ toString t.toInt ++ " is outside the program") ip
  | stackOverflow ip => atInstruction "stack overflow" ip
  | emptyStack ip => atInstruction "pop from empty stack" ip
  | stepLimit limit => "step limit of " ++ toString limit ++ " instructions exceeded"
  | load fault => "failed to load program: " ++ fault.message

end MachineError

end Fool
