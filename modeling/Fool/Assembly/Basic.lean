import Fool.Assembly.Error
import Fool.Machine.Instruction

/-!
# Assembly

Code together with the size of memory for which its addresses were computed, if that is known. In the written form
(`Assembly.text`) the size stands in a first line `.memory N`, and each instruction has a line of its own.
-/

namespace Fool

/-- The size of memory where nothing else is said. -/
def defaultMemorySize : Nat := 10000

/-- Code and the size of memory it counts on. -/
structure Assembly where
  memorySize : Option Nat
  instructions : List Instruction
deriving DecidableEq, Repr

namespace Assembly

/-- Text with a line feed behind it. -/
def line (text : String) : String := text ++ "\n"

/-- The written form. -/
def text (a : Assembly) : String :=
  let head := match a.memorySize with
    | some n => [line (".memory " ++ toString n)]
    | none => []
  String.join (head ++ a.instructions.map fun i => line i.text)

/-- The size of memory to run with: the recorded one, which a request has to agree with, else the requested one. -/
def memorySizeFor (a : Assembly) (requested : Option Nat) : Except AsmError Nat :=
  match a.memorySize, requested with
  | some recorded, some n => if recorded = n then .ok n else .error (.memoryMismatch recorded n)
  | some recorded, none => .ok recorded
  | none, some n => .ok n
  | none, none => .ok defaultMemorySize

end Assembly

end Fool
