import Fool.Assembly.Basic
import Fool.Machine.Error
import Fool.Machine.Image

/-!
# The state of the machine

Memory is shared by the stack, which grows down from its end to `sp`, and the heap, which grows up from address 0 to
the register `hp`. A step that fails leaves the state as it was when the fault was found.
-/

namespace Fool

/-- How large memory is, and how many instructions may be executed. -/
structure MachineOptions where
  memorySize : Nat
  stepLimit : Option Nat
deriving DecidableEq, Repr

/-- The usual memory, and no limit. -/
def MachineOptions.standard : MachineOptions := ⟨defaultMemorySize, none⟩

/-- The state of the machine. -/
structure Machine where
  image : Image
  options : MachineOptions
  memory : Array Int64
  ip : Nat
  sp : Nat
  fp : Int64
  ra : Int64
  tm : Int64
  hp : Int64
  output : Array Int64
  steps : Nat

/-- A step of the machine. -/
abbrev MachineM := EStateM MachineError Machine

namespace Machine

/-- The machine before its first step: memory is zero, the stack is empty, the frame is at the end of memory. -/
def start (image : Image) (options : MachineOptions) : Machine where
  image := image
  options := options
  memory := Array.replicate options.memorySize 0
  ip := 0
  sp := options.memorySize
  fp := Int64.ofNat options.memorySize
  ra := 0
  tm := 0
  hp := 0
  output := #[]
  steps := 0

/-- The value in a cell of memory. -/
def cell? (m : Machine) (address : Nat) : Option Int64 := m.memory[address]?

/-- The topmost value of the stack. -/
def top? (m : Machine) : Option Int64 := m.cell? m.sp

/-- The number of values on the stack. -/
def stackDepth (m : Machine) : Nat := m.options.memorySize - m.sp

/-- The value that a run which ends here gives. -/
def value? (m : Machine) : Option Int64 := if 0 < m.stackDepth then m.top? else none

/-- The value of a register. -/
def get (m : Machine) : Register → Int64
  | .fp => m.fp
  | .ra => m.ra
  | .tm => m.tm
  | .hp => m.hp

/-- Gives a register a value. -/
def put (m : Machine) (r : Register) (v : Int64) : Machine :=
  match r with
  | .fp => { m with fp := v }
  | .ra => { m with ra := v }
  | .tm => { m with tm := v }
  | .hp => { m with hp := v }

/-- A value as an index below `limit`. -/
def index? (v : Int64) (limit : Nat) : Option Nat :=
  if 0 ≤ v ∧ v.toNatClampNeg < limit then some v.toNatClampNeg else none

/-- The address of a label. Loaded code defines every label it uses. -/
def addressOf (m : Machine) (label : String) : Nat := (m.image.addressOf? label).getD m.image.size

/-! ## Single steps -/

/-- Fails at the current instruction. -/
def fail {α : Type} (fault : Nat → MachineError) : MachineM α := fun m => .error (fault m.ip) m

/-- Puts a value on the stack, which must not grow into the heap. -/
def push (v : Int64) : MachineM Unit := fun m =>
  if m.sp = 0 ∨ Int64.ofNat m.sp ≤ m.hp then
    .error (.stackOverflow m.ip) m
  else
    .ok () { m with sp := m.sp - 1, memory := m.memory.setIfInBounds (m.sp - 1) v }

/-- Takes the topmost value. -/
def pop : MachineM Int64 := fun m =>
  match m.top? with
  | some v => .ok v { m with sp := m.sp + 1 }
  | none => .error (.emptyStack m.ip) m

/-- The cell that a value addresses. -/
def address (v : Int64) : MachineM Nat := fun m =>
  match index? v m.options.memorySize with
  | some a => .ok a m
  | none => .error (.invalidAddress v m.ip) m

/-- The instruction that a value addresses. -/
def jumpTarget (v : Int64) : MachineM Nat := fun m =>
  match index? v m.image.size with
  | some a => .ok a m
  | none => .error (.invalidJump v m.ip) m

/-- The value in a cell. -/
def fetch (address : Nat) : MachineM Int64 := fun m => .ok ((m.cell? address).getD 0) m

/-- Gives a cell a value. -/
def write (address : Nat) (v : Int64) : MachineM Unit := fun m =>
  .ok () { m with memory := m.memory.setIfInBounds address v }

end Machine

end Fool
