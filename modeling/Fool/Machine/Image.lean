import Fool.Assembly.Error
import Fool.Machine.Instruction
import Std.Data.TreeMap

/-!
# Loaded code

An `Image` is code whose labels are known: each is defined once, and each that is used is defined (`Image.load`).
The address of a label is the address of its definition.
-/

namespace Fool

/-- Code and the addresses of its labels. -/
structure Image where
  code : Array Instruction
  labels : Std.TreeMap String Nat

namespace Image

/-- Adds the labels that `code` defines from `address` on; the first that is defined again is refused. -/
def addLabels (labels : Std.TreeMap String Nat) (address : Nat) :
    List Instruction → Except AsmError (Std.TreeMap String Nat)
  | [] => .ok labels
  | i :: code =>
    match i.defined? with
    | none => addLabels labels (address + 1) code
    | some l =>
      if labels.contains l then .error (.duplicateLabel l)
      else addLabels (labels.insert l address) (address + 1) code

/-- Loads code. -/
def load (code : List Instruction) : Except AsmError Image := do
  let labels ← addLabels ∅ 0 code
  match (code.filterMap (·.target?)).find? fun l => !labels.contains l with
  | some l => .error (.unknownLabel l)
  | none => .ok ⟨code.toArray, labels⟩

/-- The number of instructions. -/
def size (m : Image) : Nat := m.code.size

/-- The instruction at an address. -/
def get? (m : Image) (address : Nat) : Option Instruction := m.code[address]?

/-- The address of a label. -/
def addressOf? (m : Image) (label : String) : Option Nat := m.labels[label]?

end Image

end Fool
