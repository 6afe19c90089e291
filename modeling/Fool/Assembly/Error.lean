/-!
# Faults in code

What can be wrong with the text of a program for the machine, or with its labels.
-/

namespace Fool

/-- Why code is refused. Lines are counted from 1. -/
inductive AsmError where
  | unknownInstruction (line : Nat) (text : String)
  | missingOperand (line : Nat) (mnemonic : String)
  | unexpectedOperand (line : Nat) (operand : String)
  | duplicateLabel (label : String)
  | unknownLabel (label : String)
  | invalidDirective (line : Nat) (text : String)
  /-- The code counts on another size of memory than the one asked for. -/
  | memoryMismatch (recorded requested : Nat)
deriving DecidableEq, Repr

namespace AsmError

/-- A message about a line. -/
def atLine (line : Nat) (text : String) : String := "line " ++ toString line ++ ": " ++ text

/-- The wording of a fault. -/
def message : AsmError → String
  | unknownInstruction line text => atLine line ("unknown instruction '" ++ text ++ "'")
  | missingOperand line mnemonic => atLine line ("'" ++ mnemonic ++ "' needs an operand")
  | unexpectedOperand line operand => atLine line ("unexpected operand '" ++ operand ++ "'")
  | duplicateLabel label => "label '" ++ label ++ "' is defined more than once"
  | unknownLabel label => "label '" ++ label ++ "' is never defined"
  | invalidDirective line text => atLine line ("invalid directive '" ++ text ++ "'")
  | memoryMismatch recorded requested =>
    "code was generated for " ++ toString recorded ++ " memory cells, not " ++ toString requested

end AsmError

end Fool
