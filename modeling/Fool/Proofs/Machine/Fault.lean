import Fool.Proofs.Machine.Bare
import Fool.Proofs.Machine.Limit

/-!
# What a fault leaves

An instruction first takes its operands off the stack, and what can go wrong goes wrong then or right behind it. So a fault
names the instruction, and nothing is lost but operands (`harmless_execute`): all that the instruction takes, or all that are
there if one is missing. Only a call whose target lies outside the code has written its return address before it fails.
`harmless_of_reachable` says so of every moment of every run.
-/

namespace Fool

/-- How many values an instruction takes off the stack. -/
def Instruction.operands : Instruction → Nat
  | .pop | .store _ | .loadWord | .jumpSub | .print => 1
  | .arith _ | .branch .. | .storeWord => 2
  | .push _ | .pushLabel _ | .jump _ | .label _ | .load _ | .copyFp | .halt => 0

theorem Instruction.operands_le (i : Instruction) : i.operands ≤ 2 := by
  cases i <;> simp [operands]

theorem Instruction.operands_of_isPush {i : Instruction} (h : i.isPush = true) : i.operands = 0 := by
  cases i <;> simp_all [operands, isPush]

/-- The fault is a jump to a target outside the code. -/
def MachineError.isJump : MachineError → Bool
  | .invalidJump .. => true
  | _ => false

namespace Machine

variable {α β : Type} {image : Image} {options : MachineOptions} {M ip n : Nat} {m m' : Machine} {i : Instruction}
variable {e : MachineError} {code : Code}

/-- An instruction that takes `n` operands has failed. The fault is one of this instruction, and it is an empty stack just
if an operand was missing; nothing is lost but the operands that were there, and the old return address behind a jump. -/
structure Faulted (n : Nat) (m : Machine) (e : MachineError) (m' : Machine) : Prop where
  fault : e.At m.ip
  missing : e = .emptyStack m.ip ↔ m.stackDepth < n
  left : m' = { m with
    sp := m.sp + min n m.stackDepth
    ra := if e.isJump then Int64.ofNat (m.ip + 1) else m.ra }

/-- Where the step fails, it leaves what an instruction with `n` operands leaves. -/
def Harmless (image : Image) (M ip n : Nat) (step : MachineM α) : Prop :=
  ∀ m e m', m.Fits image M ip → step m = .error e m' → Faulted n m e m'

/-! ## Parts of an instruction -/

/-- The first step of two fails, or the second one behind it. -/
theorem error_of_bind {step : MachineM α} {next : α → MachineM β} (h : (step >>= next) m = .error e m') :
    step m = .error e m' ∨ ∃ a m₁, step m = .ok a m₁ ∧ next a m₁ = .error e m' := by
  change EStateM.bind step next m = _ at h
  unfold EStateM.bind at h
  cases hs : step m with
  | error e' m₁ =>
    rw [hs] at h
    cases h
    exact .inl rfl
  | ok a m₁ =>
    rw [hs] at h
    exact .inr ⟨a, m₁, rfl, h⟩

/-- A step that has found its operands fails for another reason, and changes nothing. -/
theorem faulted_zero (hfault : e.At m.ip) (hempty : e ≠ .emptyStack m.ip) (hjump : e.isJump = false) : Faulted 0 m e m where
  fault := hfault
  missing := iff_of_false hempty (Nat.not_lt_zero _)
  left := by simp [hjump]

theorem harmless_pure (a : α) : Harmless image M ip n (pure a) := by
  intro m e m' _ h
  cases h

theorem harmless_get {next : Machine → MachineM α}
    (h : ∀ m, m.Fits image M ip → Harmless image M ip n (next m)) : Harmless image M ip n (EStateM.get >>= next) :=
  fun m e m' hm hrun => h m hm m e m' hm hrun

theorem harmless_fail : Harmless image M ip 0 (fail .divisionByZero : MachineM α) := by
  intro m e m' _ h
  cases h
  exact faulted_zero .divisionByZero nofun rfl

/-- A step that is always taken, and nothing behind it fails. -/
theorem harmless_modify (f : Machine → Machine) (a : α) :
    Harmless image M ip n (modify f >>= fun _ => pure a) := by
  intro m e m' _ h
  cases h

/-- **One operand more is taken in front of a step.** -/
theorem harmless_pop {next : Int64 → MachineM α} (h : ∀ v, Harmless image M ip n (next v)) :
    Harmless image M ip (n + 1) (pop >>= next) := by
  intro m e m' hm hrun
  have hdepth : m.stackDepth = m.memory.size - m.sp := by rw [stackDepth, hm.options, hm.size]
  rcases error_of_bind hrun with hpop | ⟨v, m₁, hpop, hnext⟩
  · unfold pop at hpop
    cases htop : m.top? with
    | some v =>
      rw [htop] at hpop
      cases hpop
    | none =>
      rw [htop] at hpop
      cases hpop
      have hle : m.memory.size ≤ m.sp := Array.getElem?_eq_none_iff.1 htop
      have hzero : m.stackDepth = 0 := by omega
      refine ⟨.emptyStack, iff_of_true rfl (by omega), ?_⟩
      simp [hzero, MachineError.isJump]
  · obtain ⟨-, hlt, hm₁⟩ := ok_of_pop hpop
    have hsize := hm.size
    have hfits : m₁.Fits image M ip :=
      hm₁ ▸ ⟨hm.image, hm.options, hm.size, hm.ip, show m.sp + 1 ≤ M by omega⟩
    have hrest : m.stackDepth = m₁.stackDepth + 1 := by
      rw [hdepth, hm₁, stackDepth, hm.options]
      show _ = M - (m.sp + 1) + 1
      omega
    obtain ⟨hfault, hmissing, hleft⟩ := h v m₁ e m' hfits hnext
    have hip : m₁.ip = m.ip := by rw [hm₁]
    rw [hip] at hfault hmissing
    refine ⟨hfault, hmissing.trans (by omega), hleft.trans ?_⟩
    have hsp : m₁.sp + min n m₁.stackDepth = m.sp + min (n + 1) m.stackDepth := by
      rw [hrest, Nat.add_min_add_right, hm₁]
      show m.sp + 1 + _ = _
      omega
    rw [hsp, hm₁]

theorem harmless_push (v : Int64) (a : α) : Harmless image M ip 0 (push v >>= fun _ => pure a) := by
  intro m e m' _ hrun
  rcases error_of_bind hrun with hpush | ⟨_, _, _, h⟩
  · unfold push at hpush
    split at hpush <;> cases hpush
    exact faulted_zero .stackOverflow nofun rfl
  · cases h

theorem harmless_address (v : Int64) {next : Nat → MachineM α} (h : ∀ a, Harmless image M ip 0 (next a)) :
    Harmless image M ip 0 (address v >>= next) := by
  intro m e m' hm hrun
  rcases error_of_bind hrun with haddress | ⟨a, m₁, haddress, hnext⟩
  · unfold address at haddress
    split at haddress <;> cases haddress
    exact faulted_zero .invalidAddress nofun rfl
  · obtain ⟨-, rfl⟩ := ok_of_address haddress
    exact h a _ e m' hm hnext

/-- The return address is written in front of the jump. -/
theorem harmless_jumpTarget (v : Int64) : Harmless image M ip 0
    (modify (fun m => { m with ra := Int64.ofNat (ip + 1) }) >>= fun _ => jumpTarget v >>= fun a => pure (some a)) := by
  intro m e m' hm hrun
  change (jumpTarget v >>= fun a => pure (some a)) { m with ra := Int64.ofNat (ip + 1) } = _ at hrun
  rcases error_of_bind hrun with hjump | ⟨_, _, _, h⟩
  · unfold jumpTarget at hjump
    split at hjump <;> cases hjump
    refine ⟨.invalidJump, iff_of_false nofun (Nat.not_lt_zero _), ?_⟩
    simp [MachineError.isJump, hm.ip]
  · cases h

/-! ## One instruction -/

/-- **An instruction that fails loses at most its operands.** -/
theorem harmless_execute (i : Instruction) : Harmless image M ip i.operands (execute i) := by
  refine harmless_get fun m hm => ?_
  cases i with
  | push v => exact harmless_push v _
  | pushLabel l => exact harmless_get fun _ _ => harmless_push _ _
  | pop => exact harmless_pop fun _ => harmless_pure _
  | arith op =>
    refine harmless_pop fun right => harmless_pop fun left => ?_
    cases op.result? left right with
    | some v => exact harmless_push v _
    | none => exact harmless_fail
  | jump l => exact harmless_get fun _ _ => harmless_pure _
  | branch on l =>
    refine harmless_pop fun right => harmless_pop fun left => ?_
    by_cases h : on.holds left right
    · rw [if_pos h]
      exact harmless_get fun _ _ => harmless_pure _
    · rw [if_neg h]
      exact harmless_pure _
  | label l => exact harmless_pure _
  | load r => exact harmless_get fun _ _ => harmless_push _ _
  | store r => exact harmless_pop fun v => harmless_modify _ _
  | copyFp => exact harmless_modify _ _
  | loadWord =>
    exact harmless_pop fun v => harmless_address v fun a m e m' hm hrun => harmless_push _ _ m e m' hm hrun
  | storeWord =>
    exact harmless_pop fun v => harmless_pop fun value => harmless_address v fun a => harmless_modify _ _
  | jumpSub =>
    rw [hm.ip]
    exact harmless_pop fun v => harmless_jumpTarget v
  | print => exact harmless_pop fun v => harmless_modify _ _
  | halt => exact harmless_pure _

/-- An instruction that takes nothing leaves everything as it was when it fails. -/
theorem eq_of_operands (hi : i.operands = 0) (h : execute i m = .error e m') : m' = m := by
  have hpush : ∀ v, (push v >>= fun _ => pure (some (m.ip + 1))) m = .error e m' → m' = m := by
    intro v hrun
    rcases error_of_bind hrun with hpush | ⟨_, _, _, hpure⟩
    · unfold push at hpush
      split at hpush <;> cases hpush
      rfl
    · cases hpure
  cases i with
  | push v => exact hpush v h
  | pushLabel l => exact hpush _ h
  | load r => exact hpush _ h
  | jump l => cases h
  | label l => cases h
  | copyFp => cases h
  | halt => cases h
  | _ => cases hi

/-- So does a pop. -/
theorem eq_of_pop (h : execute .pop m = .error e m') : m' = m := by
  have hrun : (pop >>= fun _ => pure (some (m.ip + 1))) m = .error e m' := h
  rcases error_of_bind hrun with hpop | ⟨_, _, _, hpure⟩
  · unfold pop at hpop
    split at hpop <;> cases hpop
    rfl
  · cases hpure

theorem execute_of_step (h : m.step i = (some (.error e), m')) : execute i (m.counted (m.steps + 1)) = .error e m' := by
  unfold step at h
  rcases hrun : execute i { m with steps := m.steps + 1 } with ⟨_ | next, m₁⟩ | ⟨e', m₁⟩ <;> rw [hrun] at h <;> cases h
  exact hrun

/-- Where an operand is missing on an empty stack, nothing has changed. -/
theorem Faulted.eq_of_empty (h : Faulted n m e m') (hempty : m.stackDepth = 0) (hn : n ≠ 0) : m' = m := by
  have hjump : e.isJump = false := by
    rw [h.missing.2 (by omega)]
    rfl
  rw [h.left, hempty, Nat.min_zero, hjump]
  rfl

/-! ## Every moment of every run -/

/-- **A fault names its instruction and damages nothing.** When an instruction of loaded code fails, at any moment of any
run, the fault is one of this instruction, and the machine still stands at it. Memory, output and registers are what they
were, but the return address behind a jump outside the code. At most two operands are gone: all that the instruction takes,
or all that were there, and the stack was empty too early just if the fault says so. Where a push is refused or a stack was
empty to begin with, nothing has changed but the count of steps. -/
theorem harmless_of_reachable (hload : Image.load code = .ok image) (h : Reachable image options m)
    (hi : image.get? m.ip = some i) (hfail : m.step i = (some (.error e), m')) :
    e.At m.ip ∧ m'.image.get? m'.ip = some i ∧
      m' = { m with
        steps := m.steps + 1
        sp := m.sp + min i.operands m.stackDepth
        ra := if e.isJump then Int64.ofNat (m.ip + 1) else m.ra } ∧
      m.sp ≤ m'.sp ∧ m'.sp ≤ m.sp + 2 ∧
      (e = .emptyStack m.ip ↔ m.stackDepth < i.operands) ∧
      (i.isPush = true ∨ i = .pop ∨ m.stackDepth = 0 → m' = m.counted (m.steps + 1)) := by
  have hsafe : m.Safe := h.safe hload
  have hrun : execute i (m.counted (m.steps + 1)) = .error e m' := execute_of_step hfail
  have hfaulted : Faulted i.operands (m.counted (m.steps + 1)) e m' :=
    harmless_execute i _ e m' ⟨rfl, rfl, hsafe.memory, rfl, hsafe.stack⟩ hrun
  have hmissing : e = .emptyStack m.ip ↔ m.stackDepth < i.operands := hfaulted.missing
  have hleft : m' = { m with
      steps := m.steps + 1
      sp := m.sp + min i.operands m.stackDepth
      ra := if e.isJump then Int64.ofNat (m.ip + 1) else m.ra } := hfaulted.left
  refine ⟨hfaulted.fault, by rw [hleft, h.like.1, hi], hleft, ?_, ?_, hmissing, fun hnone => ?_⟩
  · rw [hleft]
    exact Nat.le_add_right _ _
  · have hle := i.operands_le
    rw [hleft]
    show m.sp + min i.operands m.stackDepth ≤ m.sp + 2
    omega
  · rcases hnone with hpush | rfl | hempty
    · exact eq_of_operands (Instruction.operands_of_isPush hpush) hrun
    · exact eq_of_pop hrun
    · by_cases hzero : i.operands = 0
      · exact eq_of_operands hzero hrun
      · exact hfaulted.eq_of_empty hempty hzero

/-- Code that puts the heap far above the stack, and then adds. -/
def crowded : Image := ⟨#[.push 1, .push 2, .push 100, .store .hp, .arith .add], ∅⟩

/-- The machine in front of the sum. -/
def beforeSum : Machine :=
  ([.push 1, .push 2, .push 100, .store .hp] : Code).foldl (fun m i => (m.step i).2) (start crowded ⟨10, none⟩)

/-- Both operands of a sum have been taken when the result is refused. -/
theorem harmless_of_reachable_sum : Image.load crowded.code.toList = .ok crowded ∧
    Reachable crowded ⟨10, none⟩ beforeSum ∧ beforeSum.hp = 100 ∧ beforeSum.stackDepth = 2 ∧
    beforeSum.step (.arith .add) = (some (.error (.stackOverflow 4)), (beforeSum.step (.arith .add)).2) ∧
    (MachineError.stackOverflow 4).At beforeSum.ip ∧
    (beforeSum.step (.arith .add)).2 = { beforeSum with steps := 5, sp := 10 } := by
  have hload : Image.load crowded.code.toList = .ok crowded := rfl
  have hreach : Reachable crowded ⟨10, none⟩ beforeSum :=
    .step (.step (.step (.step .start (by decide +kernel)) (by decide +kernel)) (by decide +kernel)) (by decide +kernel)
  have hfail : beforeSum.step (.arith .add) = (some (.error (.stackOverflow 4)), (beforeSum.step (.arith .add)).2) :=
    Prod.ext (by decide +kernel) rfl
  obtain ⟨hat, -, hleft, -⟩ := harmless_of_reachable hload hreach (by decide +kernel) hfail
  have hsteps : beforeSum.steps + 1 = 5 := by decide +kernel
  have hsp : beforeSum.sp + min (Instruction.arith .add).operands beforeSum.stackDepth = 10 := by decide +kernel
  rw [hsteps, hsp] at hleft
  exact ⟨hload, hreach, by decide +kernel, by decide +kernel, hfail, hat, hleft⟩

end Machine

end Fool
