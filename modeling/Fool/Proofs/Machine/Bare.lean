import Fool.Proofs.Machine.Apart
import Fool.Proofs.Machine.Load

/-!
# Machines stay in bounds

A bare machine has no answer at all where memory is accessed out of range, a label has no address, a number falls below
zero or something is divided by zero. The machine has an answer there too; but it never comes there. In every state to
which runs of loaded code come, however often they are resumed and whatever is in the registers (`Reachable`), it is
`Safe`, and an instruction does what that of the bare machine does (`Safe.step`). `safe_of_reachable` says both.
-/

namespace Fool

/-! ## A machine that can get stuck -/

/-- A step of the bare machine, which may have no answer. -/
abbrev BareM := ExceptT MachineError (StateT Machine Option)

namespace Bare

variable {α : Type}

/-- There is no answer. -/
def stuck : BareM α := fun _ => none

/-- What is there, if it is. -/
def given (x : Option α) : BareM α :=
  match x with
  | some a => return a
  | none => stuck

/-- A difference of natural numbers. -/
def minus (a b : Nat) : BareM Nat := if b ≤ a then return a - b else stuck

/-- The quotient of two values. -/
def quotient (left right : Int64) : BareM Int64 := if right = 0 then stuck else return left / right

/-- The value in a cell. -/
def fetch (a : Nat) : BareM Int64 := do given ((← get).memory[a]?)

/-- Gives a cell a value. -/
def write (a : Nat) (v : Int64) : BareM Unit := do
  if a < (← get).memory.size then
    modify fun m => { m with memory := m.memory.setIfInBounds a v }
  else
    stuck

/-- The address of a label. -/
def addressOf (l : String) : BareM Nat := do given ((← get).image.addressOf? l)

/-- Fails at the current instruction. -/
def fail (fault : Nat → MachineError) : BareM α := do throw (fault (← get).ip)

/-- Puts a value on the stack, which must not grow into the heap. -/
def push (v : Int64) : BareM Unit := do
  let m ← get
  if m.sp = 0 ∨ Int64.ofNat m.sp ≤ m.hp then
    fail .stackOverflow
  else
    let sp ← minus m.sp 1
    set { m with sp }
    write sp v

/-- Takes the topmost value, if the stack is not empty. -/
def pop : BareM Int64 := do
  let m ← get
  if m.sp < m.memory.size then
    let v ← fetch m.sp
    set { m with sp := m.sp + 1 }
    return v
  else
    fail .emptyStack

/-- The cell that a value addresses. -/
def address (v : Int64) : BareM Nat := do
  match Machine.index? v (← get).options.memorySize with
  | some a => return a
  | none => fail (.invalidAddress v)

/-- The instruction that a value addresses. -/
def jumpTarget (v : Int64) : BareM Nat := do
  match Machine.index? v (← get).image.size with
  | some a => return a
  | none => fail (.invalidJump v)

/-- An operation on two values. -/
def apply (op : Arith) (left right : Int64) : BareM Int64 :=
  match op with
  | .add => return left + right
  | .sub => return left - right
  | .mul => return left * right
  | .div => if right = 0 then fail .divisionByZero else quotient left right

/-- Executes one instruction. -/
def execute (i : Instruction) : BareM (Option Nat) := do
  let next := (← get).ip + 1
  match i with
  | .push v =>
    push v
    return some next
  | .pushLabel l =>
    let target ← addressOf l
    push (Int64.ofNat target)
    return some next
  | .pop =>
    let _ ← pop
    return some next
  | .arith op =>
    let right ← pop
    let left ← pop
    let v ← apply op left right
    push v
    return some next
  | .jump l => return some (← addressOf l)
  | .branch on l =>
    let right ← pop
    let left ← pop
    if on.holds left right then
      return some (← addressOf l)
    else
      return some next
  | .label _ => return some next
  | .load r =>
    push ((← get).get r)
    return some next
  | .store r =>
    let v ← pop
    modify fun m => m.put r v
    return some next
  | .copyFp =>
    modify fun m => { m with fp := Int64.ofNat m.sp }
    return some next
  | .loadWord =>
    let a ← address (← pop)
    let v ← fetch a
    push v
    return some next
  | .storeWord =>
    let v ← pop
    let value ← pop
    let a ← address v
    write a value
    return some next
  | .jumpSub =>
    let v ← pop
    modify fun m => { m with ra := Int64.ofNat next }
    return some (← jumpTarget v)
  | .print =>
    let v ← pop
    modify fun m => { m with output := m.output.push v }
    return some next
  | .halt => return none

/-- The value that a run gives which ends here. -/
def value : BareM (Option Int64) := do
  let m ← get
  let depth ← minus m.options.memorySize m.sp
  return if 0 < depth then m.memory[m.sp]? else none

/-- One instruction, which is counted. -/
def step (i : Instruction) (m : Machine) : Option (Option Machine.Answer × Machine) := do
  match ← (execute i).run.run { m with steps := m.steps + 1 } with
  | (.ok (some next), m) => return (none, { m with ip := next })
  | (.ok none, m) =>
    let (v, m) ← value.run.run m
    return (some v, m)
  | (.error e, m) => return (some (.error e), m)

end Bare

/-! ## Steps that do not get stuck -/

/-- The fault is one of the instruction at the address. -/
inductive MachineError.At (ip : Nat) : MachineError → Prop
  | divisionByZero : At ip (.divisionByZero ip)
  | invalidAddress {v : Int64} : At ip (.invalidAddress v ip)
  | invalidJump {v : Int64} : At ip (.invalidJump v ip)
  | stackOverflow : At ip (.stackOverflow ip)
  | emptyStack : At ip (.emptyStack ip)

namespace Machine

/-- The stack lies in a memory of `M` cells. -/
structure Fits (image : Image) (M ip : Nat) (m : Machine) : Prop where
  image : m.image = image
  options : m.options.memorySize = M
  size : m.memory.size = M
  ip : m.ip = ip
  sp : m.sp ≤ M

/-- What a step of the machine is in the words of the bare one. -/
def outcome {α : Type} : EStateM.Result MachineError Machine α → Except MachineError α × Machine
  | .ok a m => (.ok a, m)
  | .error e m => (.error e, m)

/-- As long as the stack lies in memory, the bare step does what the other one does; the stack lies in memory afterwards
too, an answer has the property, and a fault is one of this instruction. -/
def Sure {α : Type} (image : Image) (M ip : Nat) (P : α → Prop) (bare : BareM α) (step : MachineM α) : Prop :=
  ∀ m, m.Fits image M ip → bare m = some (outcome (step m)) ∧ (outcome (step m)).2.Fits image M ip ∧
    (∀ a m', step m = .ok a m' → P a) ∧ ∀ e m', step m = .error e m' → e.At ip

variable {α β : Type} {image : Image} {M ip : Nat} {m : Machine} {P : α → Prop} {Q : β → Prop}

/-! ### Parts of an instruction -/

theorem sure_pure {a : α} (h : P a) : Sure image M ip P (pure a) (pure a) := by
  refine fun m hm => ⟨rfl, hm, fun a' m' heq => ?_, nofun⟩
  cases heq
  exact h

theorem sure_bind {x : BareM α} {y : MachineM α} {f : α → BareM β} {g : α → MachineM β} (h : Sure image M ip P x y)
    (h' : ∀ a, P a → Sure image M ip Q (f a) (g a)) : Sure image M ip Q (x >>= f) (y >>= g) := by
  intro m hm
  obtain ⟨hbare, hfits, hp, hat⟩ := h m hm
  have hrun : (x >>= f) m = (x m).bind fun r => match r with
      | (.ok a, m') => f a m'
      | (.error e, m') => some (.error e, m') := by
    show (StateT.bind x _ m : Option _) = _
    refine congrArg (x m).bind (funext fun r => ?_)
    obtain ⟨_ | _, _⟩ := r <;> rfl
  have hstep : (y >>= g) m = EStateM.bind y g m := rfl
  unfold EStateM.bind at hstep
  rw [hrun, hstep, hbare]
  cases hy : y m with
  | ok a m' =>
    rw [hy] at hfits
    exact h' a (hp a m' hy) m' hfits
  | error e m' =>
    rw [hy] at hfits
    refine ⟨rfl, hfits, nofun, fun e' m'' heq => ?_⟩
    cases heq
    exact hat e m' hy

theorem sure_get {f : Machine → BareM α} {g : Machine → MachineM α}
    (h : ∀ m, m.Fits image M ip → Sure image M ip P (f m) (g m)) :
    Sure image M ip P (MonadState.get >>= f) (EStateM.get >>= g) := fun m hm => h m hm m hm

theorem sure_modify {f : Machine → Machine} (hf : ∀ m, m.Fits image M ip → (f m).Fits image M ip) :
    Sure image M ip (fun _ => True) (modify f) (modify f) := fun m hm => ⟨rfl, hf m hm, fun _ _ _ => trivial, nofun⟩

theorem sure_fail {fault : Nat → MachineError} (h : (fault ip).At ip) :
    Sure image M ip P (Bare.fail fault : BareM α) (fail fault) := by
  intro m hm
  refine ⟨rfl, hm, nofun, fun e m' heq => ?_⟩
  cases heq
  rwa [hm.ip]

theorem sure_push (v : Int64) : Sure image M ip (fun _ => True) (Bare.push v) (push v) := by
  intro m hm
  have hsize := hm.size
  have hsp := hm.sp
  by_cases hfull : m.sp = 0 ∨ Int64.ofNat m.sp ≤ m.hp
  · have hpush : push v m = .error (.stackOverflow m.ip) m := if_pos hfull
    rw [hpush]
    refine ⟨?_, hm, nofun, fun e m' heq => ?_⟩
    · show (ite (m.sp = 0 ∨ Int64.ofNat m.sp ≤ m.hp) (Bare.fail .stackOverflow) _ : BareM Unit) m = _
      rw [if_pos hfull]
      rfl
    · cases heq
      exact hm.ip ▸ .stackOverflow
  · have hpush : push v m = .ok () { m with sp := m.sp - 1, memory := m.memory.setIfInBounds (m.sp - 1) v } := if_neg hfull
    rw [hpush]
    refine ⟨?_, ⟨hm.image, hm.options, Array.size_setIfInBounds.trans hsize, hm.ip, show m.sp - 1 ≤ M by omega⟩,
      fun _ _ _ => trivial, nofun⟩
    have hone : 1 ≤ m.sp := Nat.pos_of_ne_zero fun h => hfull (.inl h)
    have hlt : m.sp - 1 < m.memory.size := by omega
    show (ite (m.sp = 0 ∨ Int64.ofNat m.sp ≤ m.hp) (Bare.fail .stackOverflow)
      (Bare.minus m.sp 1 >>= fun sp => set { m with sp } >>= fun _ => Bare.write sp v) : BareM Unit) m = _
    rw [if_neg hfull, Bare.minus, if_pos hone]
    show (ite (m.sp - 1 < m.memory.size) _ Bare.stuck : BareM Unit) _ = _
    rw [if_pos hlt]
    rfl

theorem sure_pop : Sure image M ip (fun _ => True) Bare.pop pop := by
  intro m hm
  have hsize := hm.size
  by_cases hlt : m.sp < m.memory.size
  · have hpop : pop m = .ok m.memory[m.sp] { m with sp := m.sp + 1 } := by
      rw [pop, top?, cell?, Array.getElem?_eq_getElem hlt]
    rw [hpop]
    refine ⟨?_, ⟨hm.image, hm.options, hsize, hm.ip, show m.sp + 1 ≤ M by omega⟩, fun _ _ _ => trivial, fun e m' heq => ?_⟩
    · show (ite (m.sp < m.memory.size) (Bare.fetch m.sp >>= fun v => set { m with sp := m.sp + 1 } >>= fun _ => pure v)
        (Bare.fail .emptyStack) : BareM Int64) m = _
      rw [if_pos hlt]
      show (Bare.given m.memory[m.sp]? >>= fun v => set { m with sp := m.sp + 1 } >>= fun _ => pure v : BareM Int64) m = _
      rw [Array.getElem?_eq_getElem hlt]
      rfl
    · cases heq
  · have hpop : pop m = .error (.emptyStack m.ip) m := by
      rw [pop, top?, cell?, Array.getElem?_eq_none (Nat.le_of_not_lt hlt)]
    rw [hpop]
    refine ⟨?_, hm, fun v m' heq => ?_, fun e m' heq => ?_⟩
    · show (ite (m.sp < m.memory.size) _ (Bare.fail .emptyStack) : BareM Int64) m = _
      rw [if_neg hlt]
      rfl
    · cases heq
    · cases heq
      exact hm.ip ▸ .emptyStack

/-- An index lies below the limit. -/
theorem lt_of_index? {v : Int64} {limit a : Nat} (h : index? v limit = some a) : a < limit := by
  unfold index? at h
  split at h
  · cases h
    exact And.right ‹_›
  · cases h

theorem sure_address (v : Int64) : Sure image M ip (· < M) (Bare.address v) (address v) := by
  intro m hm
  have hbare : Bare.address v m = (match index? v m.options.memorySize with
    | some a => pure a
    | none => Bare.fail (.invalidAddress v) : BareM Nat) m := rfl
  rw [hbare, address, hm.options]
  cases hindex : index? v M with
  | some a => exact sure_pure (P := (· < M)) (lt_of_index? hindex) m hm
  | none => exact sure_fail .invalidAddress m hm

theorem sure_jumpTarget (v : Int64) : Sure image M ip (· < image.size) (Bare.jumpTarget v) (jumpTarget v) := by
  intro m hm
  have hbare : Bare.jumpTarget v m = (match index? v m.image.size with
    | some a => pure a
    | none => Bare.fail (.invalidJump v) : BareM Nat) m := rfl
  rw [hbare, jumpTarget, hm.image]
  cases hindex : index? v image.size with
  | some a => exact sure_pure (P := (· < image.size)) (lt_of_index? hindex) m hm
  | none => exact sure_fail .invalidJump m hm

theorem sure_fetch {a : Nat} (ha : a < M) : Sure image M ip (fun _ => True) (Bare.fetch a) (fetch a) := by
  intro m hm
  have hlt : a < m.memory.size := hm.size ▸ ha
  refine ⟨?_, hm, fun _ _ _ => trivial, nofun⟩
  show (Bare.given m.memory[a]? : BareM Int64) m = some (.ok ((m.cell? a).getD 0), m)
  rw [cell?, Array.getElem?_eq_getElem hlt]
  rfl

theorem sure_write {a : Nat} (ha : a < M) (v : Int64) :
    Sure image M ip (fun _ => True) (Bare.write a v) (write a v) := by
  intro m hm
  refine ⟨?_, ⟨hm.image, hm.options, Array.size_setIfInBounds.trans hm.size, hm.ip, hm.sp⟩, fun _ _ _ => trivial, nofun⟩
  show (ite (a < m.memory.size) _ Bare.stuck : BareM Unit) m = _
  rw [if_pos (hm.size ▸ ha)]
  rfl

/-- The address of a label, and then what is behind it. -/
theorem sure_addressOf {l : String} {a : Nat} {f : Nat → BareM α} {g : Nat → MachineM α} (hl : image.addressOf? l = some a)
    (h : Sure image M ip P (f a) (g a)) :
    Sure image M ip P (Bare.addressOf l >>= f) (EStateM.get >>= fun m => g (m.addressOf l)) := by
  intro m hm
  have hbare : (Bare.addressOf l >>= f) m = f a m := by
    show (Bare.given (m.image.addressOf? l) >>= f : BareM α) m = _
    rw [hm.image, hl]
    rfl
  have hlabel : m.addressOf l = a := by rw [addressOf, hm.image, hl, Option.getD_some]
  have hstep : (EStateM.get >>= fun m => g (m.addressOf l)) m = g (m.addressOf l) m := rfl
  rw [hbare, hstep, hlabel]
  exact h m hm

/-- An operation on two values, and then what is behind it. -/
theorem sure_apply (op : Arith) (left right : Int64) {f : Int64 → BareM α} {g : Int64 → MachineM α}
    (h : ∀ v, Sure image M ip P (f v) (g v)) : Sure image M ip P (Bare.apply op left right >>= f)
      (match op.result? left right with
        | some v => g v
        | none => fail .divisionByZero) := by
  cases op with
  | div =>
    by_cases hzero : right = 0
    · have hbare : (Bare.apply .div left right >>= f) = (Bare.fail .divisionByZero >>= f) := by
        rw [Bare.apply, if_pos hzero]
      have hfail : (fail .divisionByZero : MachineM α) = (fail .divisionByZero >>= g) := rfl
      rw [hbare, Arith.result?, if_pos hzero, hfail]
      exact sure_bind (P := fun _ => True) (sure_fail .divisionByZero) fun v _ => h v
    · have hbare : (Bare.apply .div left right >>= f) = f (left / right) := by
        rw [Bare.apply, if_neg hzero, Bare.quotient, if_neg hzero, pure_bind]
      rw [hbare, Arith.result?, if_neg hzero]
      exact h _
  | _ =>
    rw [Bare.apply, pure_bind]
    exact h _

/-! ### One instruction -/

/-- The label that an instruction names is defined in the code. -/
def Named (image : Image) (i : Instruction) : Prop :=
  ∀ l, i.target? = some l → ∃ a, image.addressOf? l = some a ∧ image.get? a = some (.label l)

/-- Behind an instruction the run goes on at another one, or at the end of the code; only `halt` ends it. -/
def Onward (image : Image) (i : Instruction) : Option Nat → Prop
  | some next => next ≤ image.size
  | none => i = .halt

/-- An address at which there is an instruction lies in the code. -/
theorem lt_size_of_get? {i : Instruction} {a : Nat} (h : image.get? a = some i) : a < image.size :=
  (Array.getElem?_eq_some_iff.1 h).1

theorem fits_put (r : Register) (v : Int64) (hm : m.Fits image M ip) : (m.put r v).Fits image M ip := by
  cases r <;> exact ⟨hm.image, hm.options, hm.size, hm.ip, hm.sp⟩

/-- **An instruction does not get stuck.** -/
theorem sure_execute {i : Instruction} (hip : ip < image.size) (hi : Named image i) :
    Sure image M ip (Onward image i) (Bare.execute i) (execute i) := by
  refine sure_get fun m hm => ?_
  have hnext : Sure image M ip (Onward image i) (pure (some (m.ip + 1))) (pure (some (m.ip + 1))) :=
    sure_pure (show m.ip + 1 ≤ image.size from hm.ip ▸ hip)
  have hjump : ∀ l, i.target? = some l → Sure image M ip (Onward image i) (Bare.addressOf l >>= fun a => pure (some a))
      (EStateM.get >>= fun m => pure (some (m.addressOf l))) := by
    intro l hl
    obtain ⟨a, ha, hdefined⟩ := hi l hl
    exact sure_addressOf (f := fun a => pure (some a)) (g := fun a => pure (some a)) ha
      (sure_pure (Nat.le_of_lt (lt_size_of_get? hdefined)))
  cases i with
  | push v => exact sure_bind (sure_push v) fun _ _ => hnext
  | pushLabel l =>
    obtain ⟨a, ha, -⟩ := hi l rfl
    exact sure_addressOf (f := fun a => Bare.push (Int64.ofNat a) >>= fun _ => pure (some (m.ip + 1)))
      (g := fun a => push (Int64.ofNat a) >>= fun _ => pure (some (m.ip + 1))) ha (sure_bind (sure_push _) fun _ _ => hnext)
  | pop => exact sure_bind sure_pop fun _ _ => hnext
  | arith op =>
    exact sure_bind sure_pop fun right _ => sure_bind sure_pop fun left _ =>
      sure_apply op left right fun v => sure_bind (sure_push v) fun _ _ => hnext
  | jump l => exact hjump l rfl
  | branch on l =>
    refine sure_bind sure_pop fun right _ => sure_bind sure_pop fun left _ => ?_
    by_cases hholds : on.holds left right
    · rw [if_pos hholds, if_pos hholds]
      exact hjump l rfl
    · rw [if_neg hholds, if_neg hholds]
      exact hnext
  | label name => exact hnext
  | load r => exact sure_get fun m _ => sure_bind (sure_push _) fun _ _ => hnext
  | store r =>
    exact sure_bind sure_pop fun v _ => sure_bind (sure_modify fun _ => fits_put r v) fun _ _ => hnext
  | copyFp =>
    exact sure_bind (sure_modify fun m hm => ⟨hm.image, hm.options, hm.size, hm.ip, hm.sp⟩) fun _ _ => hnext
  | loadWord =>
    exact sure_bind sure_pop fun v _ => sure_bind (sure_address v) fun a ha => sure_bind (sure_fetch ha) fun w _ =>
      sure_bind (sure_push w) fun _ _ => hnext
  | storeWord =>
    exact sure_bind sure_pop fun v _ => sure_bind sure_pop fun w _ => sure_bind (sure_address v) fun a ha =>
      sure_bind (sure_write ha w) fun _ _ => hnext
  | jumpSub =>
    exact sure_bind sure_pop fun v _ =>
      sure_bind (sure_modify fun m hm => ⟨hm.image, hm.options, hm.size, hm.ip, hm.sp⟩) fun _ _ =>
        sure_bind (sure_jumpTarget v) fun a ha => sure_pure (Nat.le_of_lt ha)
  | print =>
    exact sure_bind sure_pop fun v _ =>
      sure_bind (sure_modify fun m hm => ⟨hm.image, hm.options, hm.size, hm.ip, hm.sp⟩) fun _ _ => hnext
  | halt => exact sure_pure rfl

/-! ## Every moment of every run -/

/-- The stack lies in memory, which has kept its size, and the machine stands at an instruction or right behind the last
one. If the instruction names a label, that is defined. -/
structure Safe (m : Machine) : Prop where
  stack : m.sp ≤ m.options.memorySize
  memory : m.memory.size = m.options.memorySize
  ip : m.ip ≤ m.image.size
  label : ∀ i, m.image.get? m.ip = some i → Named m.image i

/-- How an instruction ends: the run goes on, or it halts with the value that is left, or there is a fault. -/
inductive Ending (m : Machine) (i : Instruction) : Option Answer → Prop
  | next : Ending m i none
  | halt : i = .halt → Ending m i (some (.ok m.value?))
  | fault {e : MachineError} : e.At m.ip → Ending m i (some (.error e))

/-- The machines to which runs of the code come: between two instructions, after a fault, and when a run has been given
up, from where another one may go on. -/
inductive Reachable (image : Image) (options : MachineOptions) : Machine → Prop
  | start : Reachable image options (start image options)
  | step {m : Machine} {i : Instruction} : Reachable image options m → m.image.get? m.ip = some i →
      Reachable image options (step i m).2
  | run {m : Machine} : Reachable image options m → Reachable image options m.run.2

variable {i : Instruction} {options : MachineOptions} {code : Code}

/-- The value at the end of a run is there if the stack is not empty. -/
theorem value_bare (hm : m.sp ≤ m.options.memorySize) : Bare.value m = some (.ok m.value?, m) := by
  show (Bare.minus m.options.memorySize m.sp >>= _ : BareM (Option Int64)) m = _
  rw [Bare.minus, if_pos hm]
  rfl

/-- **One instruction of a safe machine** does not get stuck, and the machine is safe behind it. -/
theorem Safe.step (hm : m.Safe) (hnamed : ∀ a i, m.image.get? a = some i → Named m.image i)
    (hi : m.image.get? m.ip = some i) : Bare.step i m = some (m.step i) ∧ Ending m i (m.step i).1 ∧ (m.step i).2.Safe := by
  obtain ⟨hbare, hfits, hanswer, hat⟩ := sure_execute (lt_size_of_get? hi) (hm.label i hi) { m with steps := m.steps + 1 }
    ⟨rfl, rfl, hm.memory, rfl, hm.stack⟩
  change (Bare.execute i).run.run { m with steps := m.steps + 1 } = _ at hbare
  unfold Bare.step Machine.step
  rw [hbare]
  rcases hrun : execute i { m with steps := m.steps + 1 } with ⟨_ | next, m'⟩ | ⟨e, m'⟩ <;> rw [hrun] at hfits
  · obtain rfl : i = .halt := hanswer none m' hrun
    cases hrun
    have hvalue : (Bare.value.run.run { m with steps := m.steps + 1 }) = some (.ok m.value?, { m with steps := m.steps + 1 }) :=
      value_bare hm.stack
    refine ⟨?_, .halt rfl, hm.stack, hm.memory, hm.ip, hm.label⟩
    show (Bare.value.run.run { m with steps := m.steps + 1 } >>= fun r => pure (some r.1, r.2)) = _
    rw [hvalue]
    rfl
  · have hle : next ≤ m.image.size := hanswer (some next) m' hrun
    have himage : m'.image = m.image := hfits.image
    have hoptions : m'.options.memorySize = m.options.memorySize := hfits.options
    refine ⟨rfl, .next, hoptions ▸ hfits.sp, hfits.size.trans hoptions.symm, himage ▸ hle, fun i hi => ?_⟩
    change m'.image.get? next = some i at hi
    show Named m'.image i
    rw [himage] at hi ⊢
    exact hnamed next i hi
  · have himage : m'.image = m.image := hfits.image
    have hoptions : m'.options.memorySize = m.options.memorySize := hfits.options
    have hip : m'.ip = m.ip := hfits.ip
    refine ⟨rfl, .fault (hat e m' hrun), hoptions ▸ hfits.sp, hfits.size.trans hoptions.symm, ?_, fun i hi => ?_⟩
    · show m'.ip ≤ m'.image.size
      rw [himage, hip]
      exact hm.ip
    · change m'.image.get? m'.ip = some i at hi
      show Named m'.image i
      rw [himage] at hi ⊢
      exact hnamed m'.ip i hi

/-- So are many instructions. -/
theorem Safe.advance (n : Nat) (hm : m.Safe) (hnamed : ∀ a i, m.image.get? a = some i → Named m.image i) :
    (m.advance n).2.Safe := by
  induction n generalizing m with
  | zero =>
    unfold Machine.advance
    cases m.image.get? m.ip <;> exact hm
  | succ n ih =>
    unfold Machine.advance
    cases hi : m.image.get? m.ip with
    | none => exact hm
    | some i =>
      obtain ⟨-, -, hsafe⟩ := hm.step hnamed hi
      have hlike := like_step i m
      rcases hs : m.step i with ⟨_ | answer, m'⟩ <;> rw [hs] at hsafe hlike
      · simp only [hs]
        exact ih hsafe (hlike.image ▸ hnamed)
      · simpa only [hs] using hsafe

theorem Safe.run (hm : m.Safe) (hnamed : ∀ a i, m.image.get? a = some i → Named m.image i) : m.run.2.Safe := by
  have hsafe := hm.advance (m.lastStep - m.steps) hnamed
  unfold Machine.run
  revert hsafe
  rcases m.advance (m.lastStep - m.steps) with ⟨_ | answer, m'⟩ <;> intro hsafe
  · exact ⟨hsafe.stack, hsafe.memory, hsafe.ip, hsafe.label⟩
  · exact hsafe

theorem Reachable.like (h : Reachable image options m) : m.image = image ∧ m.options = options := by
  induction h with
  | start => exact ⟨rfl, rfl⟩
  | @step m i _ _ ih => exact ⟨(like_step i m).image.trans ih.1, (like_step i m).options.trans ih.2⟩
  | @run m _ ih => exact ⟨(like_run m).image.trans ih.1, (like_run m).options.trans ih.2⟩

/-- The quotient of two values is that of the numbers, toward zero, wrapped around to 64 bits. -/
theorem toInt_of_div {left right v : Int64} (h : Arith.div.result? left right = some v) :
    v.toInt = (left.toInt.tdiv right.toInt).bmod (2 ^ 64) := by
  change (if right = 0 then none else some (left / right)) = some v at h
  split at h
  · cases h
  · cases h
    exact Int64.toInt_div left right

theorem named_of_load (hload : Image.load code = .ok image) (a : Nat) (hi : image.get? a = some i) : Named image i := by
  obtain ⟨hcode, htargets⟩ := Image.load_sound hload
  intro l hl
  rw [Image.get?, hcode, List.getElem?_toArray] at hi
  exact htargets l (List.mem_filterMap.2 ⟨i, List.mem_of_getElem? hi, hl⟩)

theorem Reachable.safe (h : Reachable image options m) (hload : Image.load code = .ok image) : m.Safe := by
  induction h with
  | start => exact ⟨Nat.le_refl _, Array.size_replicate, Nat.zero_le _, fun _ hi => named_of_load hload 0 hi⟩
  | step hreach hi ih => exact (ih.step (hreach.like.1 ▸ fun a _ => named_of_load hload a) hi).2.2
  | run hreach ih => exact ih.run (hreach.like.1 ▸ fun a _ => named_of_load hload a)

/-- **Loaded code is run in bounds.** At every moment of every run, of the first one or of one that goes on after a fault,
the machine is safe; the value that is left can be read; the instruction does what the bare one does, and ends in one of
the ways of an instruction. Division wraps. -/
theorem safe_of_reachable (hload : Image.load code = .ok image) (h : Reachable image options m) :
    m.Safe ∧ m.image = image ∧ m.options = options ∧ Bare.value m = some (.ok m.value?, m) ∧
      (∀ i, m.image.get? m.ip = some i → Bare.step i m = some (m.step i) ∧ Ending m i (m.step i).1) ∧
      ∀ left right v, Arith.div.result? left right = some v → v.toInt = (left.toInt.tdiv right.toInt).bmod (2 ^ 64) := by
  have hsafe : m.Safe := h.safe hload
  refine ⟨hsafe, h.like.1, h.like.2, value_bare hsafe.stack, fun i hi => ?_, fun _ _ _ => toInt_of_div⟩
  obtain ⟨hbare, hending, -⟩ := hsafe.step (h.like.1 ▸ fun a _ => named_of_load hload a) hi
  exact ⟨hbare, hending⟩

/-- A loop that puts values on the stack is stopped, fails when it is resumed, and is resumed again. -/
theorem safe_of_reachable_loop : ∃ image, Image.load [.label "loop", .push 1, .jump "loop"] = .ok image ∧
    Reachable image ⟨2, some 4⟩ (Machine.start image ⟨2, some 4⟩).run.2.run.2 ∧
    (Machine.start image ⟨2, some 4⟩).run.2.run.2.Safe := by
  have hloads : (Image.load [.label "loop", .push 1, .jump "loop"]).toBool = true := by decide +kernel
  cases hload : Image.load [.label "loop", .push 1, .jump "loop"] with
  | error e =>
    rw [hload] at hloads
    cases hloads
  | ok image =>
    have hreach : Reachable image ⟨2, some 4⟩ (Machine.start image ⟨2, some 4⟩).run.2.run.2 := .run (.run .start)
    exact ⟨image, rfl, hreach, (safe_of_reachable hload hreach).1⟩

/-- The one quotient that is too large. -/
example : Arith.div.result? Int64.minValue (-1) = some Int64.minValue := by decide

end Machine

end Fool
