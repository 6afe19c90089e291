import Mathlib.Logic.Relation
import Fool.Machine.Run

/-!
# What a run leaves as it is

All that an instruction does is made of a few kinds of changes (`changing_execute`). None of them changes the code, the
options or the number of cells (`steady_execute`), so no run does (`like_run`). Hence the topmost value is the value that a
run gives (`value?_eq_top?`).
-/

namespace Fool

namespace Machine

variable {α β : Type} {m m' m'' : Machine}

/-- The machines have the same code, the same options and memories of the same size. -/
structure Like (m m' : Machine) : Prop where
  image : m'.image = m.image
  options : m'.options = m.options
  size : m'.memory.size = m.memory.size

theorem Like.refl (m : Machine) : Like m m := ⟨rfl, rfl, rfl⟩

theorem Like.trans (h : Like m m') (h' : Like m' m'') : Like m m'' :=
  ⟨h'.image.trans h.image, h'.options.trans h.options, h'.size.trans h.size⟩

/-- A step after which the machine is as before in this respect, whether the step fails or not. -/
def Steady (step : MachineM α) : Prop := ∀ m, match step m with
  | .ok _ m' => Like m m'
  | .error _ m' => Like m m'

/-! ## One instruction -/

/-- One of the changes of which instructions are made. -/
inductive Change (m : Machine) : Machine → Prop
  | stack (sp : Nat) {memory : Array Int64} : memory.size = m.memory.size → Change m { m with sp, memory }
  | register (r : Register) (v : Int64) : Change m (m.put r v)
  | print (v : Int64) : Change m { m with output := m.output.push v }

/-- Any number of such changes. -/
abbrev Changes : Machine → Machine → Prop := Relation.ReflTransGen Change

/-- The step makes no other changes, whether it fails or not. -/
def Changing (step : MachineM α) : Prop := ∀ m, match step m with
  | .ok _ m' => Changes m m'
  | .error _ m' => Changes m m'

theorem changing_pure (a : α) : Changing (pure a) := fun _ => .refl

theorem changing_bind {step : MachineM α} {next : α → MachineM β} (hstep : Changing step)
    (hnext : ∀ a, Changing (next a)) : Changing (step >>= next) := by
  intro m
  have hm := hstep m
  change match EStateM.bind step next m with
    | .ok _ m' => Changes m m'
    | .error _ m' => Changes m m'
  unfold EStateM.bind
  cases h : step m with
  | error e m' =>
    rw [h] at hm
    exact hm
  | ok a m' =>
    rw [h] at hm
    have hm' := hnext a m'
    dsimp only at hm ⊢
    cases h' : next a m' <;> rw [h'] at hm' <;> exact hm.trans hm'

theorem changing_get {next : Machine → MachineM α} (hnext : ∀ m, Changing (next m)) :
    Changing (EStateM.get >>= next) := fun m => hnext m m

theorem changing_modify {f : Machine → Machine} (h : ∀ m, Change m (f m)) : Changing (modify f : MachineM Unit) :=
  fun m => .single (h m)

theorem changing_fail (fault : Nat → MachineError) : Changing (fail fault : MachineM α) := fun _ => .refl

theorem changing_push (v : Int64) : Changing (push v) := by
  intro m
  unfold push
  by_cases h : m.sp = 0 ∨ Int64.ofNat m.sp ≤ m.hp
  · rw [if_pos h]
  · rw [if_neg h]
    exact .single (.stack _ Array.size_setIfInBounds)

theorem changing_pop : Changing pop := by
  intro m
  unfold pop
  cases m.top? with
  | some v => exact .single (.stack (m.sp + 1) rfl)
  | none => exact .refl

theorem changing_address (v : Int64) : Changing (address v) := by
  intro m
  unfold address
  cases index? v m.options.memorySize <;> exact .refl

theorem changing_jumpTarget (v : Int64) : Changing (jumpTarget v) := by
  intro m
  unfold jumpTarget
  cases index? v m.image.size <;> exact .refl

theorem changing_fetch (a : Nat) : Changing (fetch a) := fun _ => .refl

theorem changing_write (a : Nat) (v : Int64) : Changing (write a v) :=
  fun m => .single (.stack m.sp Array.size_setIfInBounds)

/-- **An instruction makes changes of these kinds only.** -/
theorem changing_execute (i : Instruction) : Changing (execute i) := by
  refine changing_get fun m => ?_
  have hjump : ∀ l, Changing (do return some ((← EStateM.get).addressOf l)) := fun l =>
    changing_get fun _ => changing_pure _
  cases i with
  | push v => exact changing_bind (changing_push v) fun _ => changing_pure _
  | pushLabel l => exact changing_get fun _ => changing_bind (changing_push _) fun _ => changing_pure _
  | pop => exact changing_bind changing_pop fun _ => changing_pure _
  | arith op =>
    refine changing_bind changing_pop fun right => changing_bind changing_pop fun left => ?_
    cases op.result? left right with
    | some v => exact changing_bind (changing_push v) fun _ => changing_pure _
    | none => exact changing_fail _
  | jump l => exact hjump l
  | branch on l =>
    refine changing_bind changing_pop fun right => changing_bind changing_pop fun left => ?_
    by_cases h : on.holds left right
    · rw [if_pos h]
      exact hjump l
    · rw [if_neg h]
      exact changing_pure _
  | label name => exact changing_pure _
  | load r => exact changing_get fun _ => changing_bind (changing_push _) fun _ => changing_pure _
  | store r =>
    exact changing_bind changing_pop fun v => changing_bind (changing_modify fun _ => .register r v) fun _ => changing_pure _
  | copyFp => exact changing_bind (changing_modify fun m => .register .fp _) fun _ => changing_pure _
  | loadWord =>
    exact changing_bind changing_pop fun v => changing_bind (changing_address v) fun a =>
      changing_bind (changing_fetch a) fun w => changing_bind (changing_push w) fun _ => changing_pure _
  | storeWord =>
    exact changing_bind changing_pop fun v => changing_bind changing_pop fun w => changing_bind (changing_address v) fun a =>
      changing_bind (changing_write a w) fun _ => changing_pure _
  | jumpSub =>
    exact changing_bind changing_pop fun v => changing_bind (changing_modify fun _ => .register .ra _) fun _ =>
      changing_bind (changing_jumpTarget v) fun _ => changing_pure _
  | print =>
    exact changing_bind changing_pop fun v => changing_bind (changing_modify fun _ => .print v) fun _ => changing_pure _
  | halt => exact changing_pure _

theorem Changes.like (h : Changes m m') : Like m m' := by
  induction h with
  | refl => exact Like.refl m
  | tail _ hlast ih =>
    refine ih.trans ?_
    cases hlast with
    | stack sp hsize => exact ⟨rfl, rfl, hsize⟩
    | register r v => cases r <;> exact ⟨rfl, rfl, rfl⟩
    | print v => exact ⟨rfl, rfl, rfl⟩

theorem Changing.steady {step : MachineM α} (h : Changing step) : Steady step := by
  intro m
  have hm := h m
  cases hrun : step m <;> rw [hrun] at hm <;> exact hm.like

/-- **No instruction changes the code, the options or the size of memory.** -/
theorem steady_execute (i : Instruction) : Steady (execute i) := (changing_execute i).steady

/-! ## Runs -/

theorem like_step (i : Instruction) (m : Machine) : Like m (step i m).2 := by
  have h := steady_execute i { m with steps := m.steps + 1 }
  have hcounted : Like m { m with steps := m.steps + 1 } := ⟨rfl, rfl, rfl⟩
  unfold step
  revert h
  rcases execute i { m with steps := m.steps + 1 } with ⟨_ | next, m'⟩ | ⟨e, m'⟩ <;> intro h
  · exact hcounted.trans h
  · exact (hcounted.trans h).trans ⟨rfl, rfl, rfl⟩
  · exact hcounted.trans h

theorem like_advance (n : Nat) (m : Machine) : Like m (advance n m).2 := by
  induction n generalizing m with
  | zero =>
    unfold advance
    cases m.image.get? m.ip <;> exact Like.refl m
  | succ n ih =>
    unfold advance
    cases m.image.get? m.ip with
    | none => exact Like.refl m
    | some i =>
      have hstep := like_step i m
      rcases hs : step i m with ⟨_ | answer, m'⟩
      · rw [hs] at hstep
        simp only [hs]
        exact hstep.trans (ih m')
      · rw [hs] at hstep
        simpa only [hs] using hstep

theorem like_run (m : Machine) : Like m m.run.2 := by
  have h := like_advance (m.lastStep - m.steps) m
  unfold run
  revert h
  rcases advance (m.lastStep - m.steps) m with ⟨_ | answer, m'⟩ <;> intro h
  · exact h.trans ⟨rfl, rfl, rfl⟩
  · exact h

/-- A run that gives an answer gives the value of the machine it leaves. -/
theorem value_of_advance {n : Nat} {v : Option Int64} (h : advance n m = (some (.ok v), m')) : v = m'.value? := by
  induction n generalizing m with
  | zero =>
    unfold advance at h
    cases hi : m.image.get? m.ip with
    | none =>
      rw [hi] at h
      cases h
      rfl
    | some i =>
      rw [hi] at h
      cases h
  | succ n ih =>
    unfold advance at h
    cases hi : m.image.get? m.ip with
    | none =>
      rw [hi] at h
      cases h
      rfl
    | some i =>
      simp only [hi] at h
      rcases hs : step i m with ⟨_ | answer, next⟩
      · simp only [hs] at h
        exact ih h
      · simp only [hs, Prod.mk.injEq, Option.some.injEq] at h
        obtain ⟨rfl, rfl⟩ := h
        unfold step at hs
        rcases hx : execute i { m with steps := m.steps + 1 } with ⟨_ | ip, m''⟩ | ⟨e, m''⟩ <;> rw [hx] at hs <;> cases hs
        rfl

theorem value_of_run {v : Option Int64} (h : m.run = (.ok v, m')) : v = m'.value? := by
  unfold run at h
  rcases ha : advance (m.lastStep - m.steps) m with ⟨_ | answer, next⟩
  · rw [ha] at h
    cases h
  · rw [ha] at h
    cases h
    exact value_of_advance ha

/-- The topmost value is the value that a run gives which ends here. -/
theorem value?_eq_top? (h : m.memory.size = m.options.memorySize) : m.value? = m.top? := by
  unfold value? stackDepth
  by_cases hd : 0 < m.options.memorySize - m.sp
  · rw [if_pos hd]
  · have hnone : m.top? = none := Array.getElem?_eq_none (by omega)
    rw [if_neg hd, hnone]

end Machine

end Fool
