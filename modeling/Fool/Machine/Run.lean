import Fool.Machine.State

/-!
# Running the machine

`execute` is one instruction, `advance n` at most `n` of them, and `run` runs to the end of the program, to `halt` or
to the limit of steps. Arithmetic is that of 64-bit words: it wraps, and division goes toward zero.
-/

namespace Fool

/-- The result of an operation on two values; there is none for a division by zero. -/
def Arith.result? (op : Arith) (left right : Int64) : Option Int64 :=
  match op with
  | add => some (left + right)
  | sub => some (left - right)
  | mul => some (left * right)
  | div => if right = 0 then none else some (left / right)

/-- Whether a comparison holds. -/
def Comparison.holds (c : Comparison) (left right : Int64) : Bool :=
  match c with
  | equal => left = right
  | lessEqual => left ≤ right

namespace Machine

/-- Executes one instruction. The answer is the address of the next one, if the run goes on. -/
def execute (i : Instruction) : MachineM (Option Nat) := do
  let next := (← EStateM.get).ip + 1
  match i with
  | .push v =>
    push v
    return some next
  | .pushLabel l =>
    let target := (← EStateM.get).addressOf l
    push (Int64.ofNat target)
    return some next
  | .pop =>
    let _ ← pop
    return some next
  | .arith op =>
    let right ← pop
    let left ← pop
    match op.result? left right with
    | some v =>
      push v
      return some next
    | none => fail .divisionByZero
  | .jump l => return some ((← EStateM.get).addressOf l)
  | .branch on l =>
    let right ← pop
    let left ← pop
    if on.holds left right then
      return some ((← EStateM.get).addressOf l)
    else
      return some next
  | .label _ => return some next
  | .load r =>
    let v := (← EStateM.get).get r
    push v
    return some next
  | .store r =>
    let v ← pop
    modify fun m => m.put r v
    return some next
  | .copyFp =>
    modify fun m => { m with fp := Int64.ofNat m.sp }
    return some next
  | .loadWord =>
    let a ← address (← pop)
    let v ← fetch a
    push v
    return some next
  | .storeWord =>
    let v ← pop
    let value ← pop
    let a ← address v
    write a value
    return some next
  | .jumpSub =>
    let v ← pop
    modify fun m => { m with ra := Int64.ofNat next }
    let target ← jumpTarget v
    return some target
  | .print =>
    let v ← pop
    modify fun m => { m with output := m.output.push v }
    return some next
  | .halt => return none

/-- How a run ends: with the value it leaves, if it leaves one, or with a fault. -/
abbrev Answer := Except MachineError (Option Int64)

/-- One instruction, which is counted. The run goes on if there is no answer. -/
def step (i : Instruction) (m : Machine) : Option Answer × Machine :=
  match execute i { m with steps := m.steps + 1 } with
  | .ok (some next) m => (none, { m with ip := next })
  | .ok none m => (some (.ok m.value?), m)
  | .error e m => (some (.error e), m)

/-- At most `n` instructions. There is no answer if the run is not over then. -/
def advance (n : Nat) (m : Machine) : Option Answer × Machine :=
  match m.image.get? m.ip with
  | none => (some (.ok m.value?), m)
  | some i =>
    match n with
    | 0 => (none, m)
    | n + 1 =>
      match step i m with
      | (none, m) => advance n m
      | (some answer, m) => (some answer, m)

/-- More steps change nothing once there is an answer. -/
theorem advance_add {n : Nat} {m m' : Machine} {a : Answer} (h : advance n m = (some a, m')) (k : Nat) :
    advance (n + k) m = (some a, m') := by
  induction n generalizing m with
  | zero =>
    unfold advance at h ⊢
    cases hi : m.image.get? m.ip with
    | none => simpa only [hi] using h
    | some i => simp only [hi, Prod.mk.injEq, reduceCtorEq, false_and] at h
  | succ n ih =>
    rw [Nat.succ_add]
    unfold advance at h ⊢
    cases hi : m.image.get? m.ip with
    | none => simpa only [hi] using h
    | some i =>
      simp only [hi] at h ⊢
      rcases hs : step i m with ⟨_ | answer, next⟩
      · simp only [hs] at h ⊢
        exact ih h
      · simpa only [hs] using h

/-- The number of steps at which a run is given up: the limit, else what a 64-bit count of the steps can hold. -/
def lastStep (m : Machine) : Nat := m.options.stepLimit.getD (UInt64.size - 1)

/-- Runs to an answer. The step beyond the limit is counted, not made. -/
def run (m : Machine) : Answer × Machine :=
  match advance (m.lastStep - m.steps) m with
  | (some answer, m) => (answer, m)
  | (none, m) => (.error (.stepLimit m.lastStep), { m with steps := m.steps + 1 })

end Machine

/-- Loads code and runs it from the start; the machine as the run leaves it. -/
def execute (code : List Instruction) (options : MachineOptions) : Except MachineError Machine := do
  match Image.load code with
  | .error e => throw (.load e)
  | .ok image =>
    match (Machine.start image options).run with
    | (.ok _, m) => return m
    | (.error e, _) => throw e

end Fool
