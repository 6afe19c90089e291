import Fool.Proofs.Machine.Apart

/-!
# What a limit of steps does to a run

An instruction looks neither at the limit nor at the count of steps (`blind_execute`), so a machine with a limit does
what the machine without one does (`advance_limited`), until the limit is reached. Each instruction counts as one step
and may only add to the output (`After.steps`, `output_advance_le`). A run that has ended with a value stands at `halt` or
behind the code, where a new run ends at once (`stops_again`). `run_limited` puts this together.
-/

namespace Fool

namespace Machine

/-- The machine with another limit of steps. -/
def limited (limit : Option Nat) (m : Machine) : Machine :=
  { m with options := { m.options with stepLimit := limit } }

/-- The machine with another count of steps. -/
def counted (steps : Nat) (m : Machine) : Machine := { m with steps }

/-- Left to itself the run ends with this answer, after however many instructions. -/
def Stops (m : Machine) (a : Answer) (m' : Machine) : Prop := ∃ n, advance n m = (some a, m')

/-- What `run` gives when it is called once more after it has been called `n` times. -/
def rerun : Nat → Machine → Answer × Machine
  | 0, m => m.run
  | n + 1, m => rerun n m.run.2

variable {α β : Type} {m m' : Machine} {i : Instruction} {n k : Nat} {limit : Option Nat}

/-! ## The limit is not looked at -/

/-- What a step gives, on the machine with another limit. -/
def limitedResult (limit : Option Nat) :
    EStateM.Result MachineError Machine α → EStateM.Result MachineError Machine α
  | .ok a m => .ok a (m.limited limit)
  | .error e m => .error e (m.limited limit)

/-- The step does the same under every limit. -/
def Blind (step : MachineM α) : Prop := ∀ limit m, step (m.limited limit) = limitedResult limit (step m)

theorem blind_pure (a : α) : Blind (pure a) := fun _ _ => rfl

theorem blind_bind {step : MachineM α} {next : α → MachineM β} (hstep : Blind step) (hnext : ∀ a, Blind (next a)) :
    Blind (step >>= next) := by
  intro limit m
  change EStateM.bind step next _ = limitedResult limit (EStateM.bind step next m)
  unfold EStateM.bind
  rw [hstep limit m]
  cases step m with
  | ok a m' => exact hnext a limit m'
  | error e m' => rfl

/-- A step that goes on from what it finds, the limit apart. -/
theorem blind_get {next : Machine → MachineM α} (hnext : ∀ m, Blind (next m))
    (hlimit : ∀ limit m, next (m.limited limit) = next m) : Blind (EStateM.get >>= next) := by
  intro limit m
  change next (m.limited limit) (m.limited limit) = limitedResult limit (next m m)
  rw [hlimit]
  exact hnext m limit m

theorem blind_modify {f : Machine → Machine} (h : ∀ limit m, f (m.limited limit) = (f m).limited limit) :
    Blind (modify f : MachineM Unit) := fun limit m => congrArg (EStateM.Result.ok ()) (h limit m)

theorem blind_fail (fault : Nat → MachineError) : Blind (fail fault : MachineM α) := fun _ _ => rfl

theorem blind_push (v : Int64) : Blind (push v) := by
  intro limit m
  change (if m.sp = 0 ∨ Int64.ofNat m.sp ≤ m.hp then _ else _) = limitedResult limit (if _ then _ else _)
  split <;> rfl

theorem blind_pop : Blind pop := by
  intro limit m
  have htop : (m.limited limit).top? = m.top? := rfl
  unfold pop
  rw [htop]
  cases m.top? <;> rfl

theorem blind_address (v : Int64) : Blind (address v) := by
  intro limit m
  have hsize : (m.limited limit).options.memorySize = m.options.memorySize := rfl
  unfold address
  rw [hsize]
  cases index? v m.options.memorySize <;> rfl

theorem blind_jumpTarget (v : Int64) : Blind (jumpTarget v) := by
  intro limit m
  have himage : (m.limited limit).image = m.image := rfl
  unfold jumpTarget
  rw [himage]
  cases index? v m.image.size <;> rfl

theorem blind_fetch (a : Nat) : Blind (fetch a) := fun _ _ => rfl

theorem blind_write (a : Nat) (v : Int64) : Blind (write a v) := fun _ _ => rfl

/-- **An instruction does the same under every limit.** -/
theorem blind_execute (i : Instruction) : Blind (execute i) := by
  have hjump : ∀ l, Blind (do return some ((← EStateM.get).addressOf l)) := fun l =>
    blind_get (fun _ => blind_pure _) fun _ _ => rfl
  refine blind_get (fun m => ?_) fun _ _ => rfl
  cases i with
  | push v => exact blind_bind (blind_push v) fun _ => blind_pure _
  | pushLabel l => exact blind_get (fun _ => blind_bind (blind_push _) fun _ => blind_pure _) fun _ _ => rfl
  | pop => exact blind_bind blind_pop fun _ => blind_pure _
  | arith op =>
    refine blind_bind blind_pop fun right => blind_bind blind_pop fun left => ?_
    cases op.result? left right with
    | some v => exact blind_bind (blind_push v) fun _ => blind_pure _
    | none => exact blind_fail _
  | jump l => exact hjump l
  | branch on l =>
    refine blind_bind blind_pop fun right => blind_bind blind_pop fun left => ?_
    by_cases h : on.holds left right
    · rw [if_pos h]
      exact hjump l
    · rw [if_neg h]
      exact blind_pure _
  | label name => exact blind_pure _
  | load r =>
    refine blind_get (fun _ => blind_bind (blind_push _) fun _ => blind_pure _) fun _ _ => ?_
    cases r <;> rfl
  | store r =>
    refine blind_bind blind_pop fun v => blind_bind (blind_modify fun _ _ => ?_) fun _ => blind_pure _
    cases r <;> rfl
  | copyFp => exact blind_bind (blind_modify fun _ _ => rfl) fun _ => blind_pure _
  | loadWord =>
    exact blind_bind blind_pop fun v => blind_bind (blind_address v) fun a =>
      blind_bind (blind_fetch a) fun w => blind_bind (blind_push w) fun _ => blind_pure _
  | storeWord =>
    exact blind_bind blind_pop fun v => blind_bind blind_pop fun w => blind_bind (blind_address v) fun a =>
      blind_bind (blind_write a w) fun _ => blind_pure _
  | jumpSub =>
    exact blind_bind blind_pop fun v => blind_bind (blind_modify fun _ _ => rfl) fun _ =>
      blind_bind (blind_jumpTarget v) fun _ => blind_pure _
  | print => exact blind_bind blind_pop fun v => blind_bind (blind_modify fun _ _ => rfl) fun _ => blind_pure _
  | halt => exact blind_pure _

theorem step_limited (i : Instruction) (m : Machine) (limit : Option Nat) :
    step i (m.limited limit) = ((step i m).1, (step i m).2.limited limit) := by
  have h := blind_execute i limit { m with steps := m.steps + 1 }
  unfold step
  rw [show ({ m.limited limit with steps := (m.limited limit).steps + 1 } : Machine) =
    limited limit { m with steps := m.steps + 1 } from rfl, h]
  rcases execute i { m with steps := m.steps + 1 } with ⟨_ | next, m'⟩ | ⟨e, m'⟩ <;> rfl

/-- **Instructions do the same under every limit.** -/
theorem advance_limited (n : Nat) (m : Machine) (limit : Option Nat) :
    advance n (m.limited limit) = ((advance n m).1, (advance n m).2.limited limit) := by
  have hnext (m : Machine) : (m.limited limit).image.get? (m.limited limit).ip = m.image.get? m.ip := rfl
  induction n generalizing m with
  | zero =>
    unfold advance
    rw [hnext]
    cases m.image.get? m.ip <;> rfl
  | succ n ih =>
    rw [advance, advance, hnext]
    cases m.image.get? m.ip with
    | none => rfl
    | some i =>
      simp only [step_limited]
      rcases step i m with ⟨_ | answer, m'⟩
      · exact ih m'
      · rfl

/-! ## What is counted and printed -/

theorem Changes.steps (h : Changes m m') : m'.steps = m.steps := by
  induction h with
  | refl => rfl
  | tail _ hlast ih =>
    cases hlast with
    | register r v => cases r <;> exact ih
    | _ => exact ih

theorem Changes.output (h : Changes m m') : m.output.toList <+: m'.output.toList := by
  induction h with
  | refl => exact List.prefix_rfl
  | @tail m₁ _ _ hlast ih =>
    cases hlast with
    | stack => exact ih
    | register r v => cases r <;> exact ih
    | print v =>
      rw [Array.toList_push]
      exact ih.trans (List.prefix_append _ _)

/-- An instruction counts as one step, and what has been printed stays. -/
theorem counts_step (i : Instruction) (m : Machine) :
    (step i m).2.steps = m.steps + 1 ∧ m.output.toList <+: (step i m).2.output.toList := by
  have h := changing_execute i { m with steps := m.steps + 1 }
  unfold step
  revert h
  rcases execute i { m with steps := m.steps + 1 } with ⟨_ | next, m'⟩ | ⟨e, m'⟩ <;> intro h
  · exact ⟨h.steps, h.output⟩
  · exact ⟨h.steps, h.output⟩
  · exact ⟨h.steps, h.output⟩

/-! ## Runs of several lengths -/

/-- So many instructions are so many steps. -/
theorem After.steps (h : m.After k m') : m'.steps = m.steps + k := by
  induction k generalizing m with
  | zero =>
    obtain ⟨rfl, -⟩ := after_zero.1 h
    rfl
  | succ k ih =>
    obtain ⟨i, m₁, -, hstep, h⟩ := after_succ.1 h
    have hone := (counts_step i m).1
    rw [hstep] at hone
    rw [ih h, hone]
    omega

/-- Where a run goes on there is an instruction. -/
theorem After.exists_instruction (h : m.After k m') : ∃ i, m'.image.get? m'.ip = some i := by
  obtain ⟨m₁, hfirst, hrest⟩ := h.between (Nat.le_refl k)
  rw [Nat.sub_self] at hrest
  obtain ⟨rfl, hi⟩ := after_zero.1 hrest
  exact hi

/-- However it ends, a run never counts backwards nor further than its instructions, and what has been printed stays. -/
theorem counts_advance (n : Nat) (m : Machine) : m.steps ≤ (advance n m).2.steps ∧
    (advance n m).2.steps ≤ m.steps + n ∧ m.output.toList <+: (advance n m).2.output.toList := by
  induction n generalizing m with
  | zero =>
    unfold advance
    cases m.image.get? m.ip <;> exact ⟨Nat.le_refl _, Nat.le_refl _, List.prefix_rfl⟩
  | succ n ih =>
    unfold advance
    cases m.image.get? m.ip with
    | none => exact ⟨Nat.le_refl _, Nat.le_add_right _ _, List.prefix_rfl⟩
    | some i =>
      obtain ⟨hone, houtput⟩ := counts_step i m
      rcases hs : step i m with ⟨_ | answer, next⟩ <;> simp only [hs] at hone houtput ⊢
      · obtain ⟨hfrom, hto, hrest⟩ := ih next
        exact ⟨by omega, by omega, houtput.trans hrest⟩
      · exact ⟨by omega, by omega, houtput⟩

/-- Where there is no instruction the run ends at once. -/
theorem advance_of_none (h : m.image.get? m.ip = none) (n : Nat) : advance n m = (some (.ok m.value?), m) := by
  unfold advance
  rw [h]

/-- **An answer that has taken no more than `k` steps is there after `k` instructions.** -/
theorem advance_of_steps_le {a : Answer} (h : advance n m = (some a, m')) (hk : m'.steps ≤ m.steps + k) :
    advance k m = (some a, m') := by
  induction n generalizing m k with
  | zero =>
    cases hi : m.image.get? m.ip with
    | none => rwa [advance_of_none hi] at h ⊢
    | some i =>
      rw [advance, hi] at h
      cases h
  | succ n ih =>
    cases hi : m.image.get? m.ip with
    | none => rwa [advance_of_none hi] at h ⊢
    | some i =>
      have hone := (counts_step i m).1
      have hlater := (counts_advance n (step i m).2).1
      rw [advance, hi] at h
      obtain ⟨k, rfl⟩ : ∃ k', k = k' + 1 := by
        refine ⟨k - 1, ?_⟩
        rcases hs : step i m with ⟨_ | answer, next⟩ <;> simp only [hs] at h hone hlater
        · rw [h] at hlater
          dsimp only at hlater
          omega
        · cases h
          omega
      rw [advance, hi]
      rcases hs : step i m with ⟨_ | answer, next⟩ <;> simp only [hs] at h hone ⊢
      · exact ih h (by omega)
      · exact h

/-- Behind some instructions the run goes on as from the machine to which they have led. -/
theorem After.advance_add (h : m.After k m') (n : Nat) : advance (k + n) m = advance n m' := by
  induction k generalizing m with
  | zero =>
    obtain ⟨rfl, -⟩ := after_zero.1 h
    rw [Nat.zero_add]
  | succ k ih =>
    obtain ⟨i, m₁, hi, hstep, h⟩ := after_succ.1 h
    rw [Nat.succ_add, advance, hi]
    simp only [hstep]
    exact ih h

/-- What has been printed after some instructions has been printed after more. -/
theorem output_advance_le (hk : n ≤ k) (m : Machine) :
    (advance n m).2.output.toList <+: (advance k m).2.output.toList := by
  obtain ⟨d, rfl⟩ := Nat.exists_eq_add_of_le hk
  rcases hadvance : advance n m with ⟨_ | answer, m'⟩
  · have hafter : m.After n m' := hadvance
    rw [hafter.advance_add]
    exact (counts_advance d m').2.2
  · exact (Machine.advance_add hadvance d).symm ▸ List.prefix_rfl

/-! ## Runs that end with a value -/

/-- Only `halt` ends a run with a value. -/
theorem eq_halt_of_execute (h : execute i m = .ok none m') : i = .halt ∧ m' = m := by
  have hhalt : i = .halt := answer_of_execute (Q := fun ip => ip = none → i = .halt) (fun hn => nomatch hn)
    (fun _ _ hn => nomatch hn) (fun _ _ hn => nomatch hn) (fun hi _ => hi) h rfl
  subst hhalt
  cases h
  exact ⟨rfl, rfl⟩

/-- A run that has ended with a value stands behind the code or at `halt`. -/
theorem halts_of_advance {v : Option Int64} (h : advance n m = (some (.ok v), m')) :
    m'.image.get? m'.ip = none ∨ m'.image.get? m'.ip = some .halt := by
  induction n generalizing m with
  | zero =>
    cases hi : m.image.get? m.ip with
    | none =>
      rw [advance_of_none hi] at h
      cases h
      exact .inl hi
    | some i =>
      rw [advance, hi] at h
      cases h
  | succ n ih =>
    cases hi : m.image.get? m.ip with
    | none =>
      rw [advance_of_none hi] at h
      cases h
      exact .inl hi
    | some i =>
      rw [advance, hi] at h
      rcases hs : step i m with ⟨_ | answer, next⟩ <;> simp only [hs] at h
      · exact ih h
      · cases h
        unfold step at hs
        rcases hx : execute i { m with steps := m.steps + 1 } with ⟨_ | ip, m₁⟩ | ⟨e, m₁⟩ <;> rw [hx] at hs <;> cases hs
        obtain ⟨rfl, rfl⟩ := eq_halt_of_execute hx
        exact .inr hi

/-! ## Runs with a limit -/

/-- What `run` gives under a limit, when nothing has been counted yet. -/
theorem run_of_limit (hm : m.steps = 0) (k : Nat) : (m.limited (some k)).run = match advance k m with
    | (some a, m') => (a, m'.limited (some k))
    | (none, m') => (.error (.stepLimit k), (m'.limited (some k)).counted (k + 1)) := by
  have hlast : (m.limited (some k)).lastStep = k := rfl
  have hsteps : (m.limited (some k)).steps = 0 := hm
  rw [run, hlast, hsteps, Nat.sub_zero, advance_limited]
  rcases hadvance : advance k m with ⟨_ | answer, m'⟩
  · have hafter : m.After k m' := hadvance
    have hcount : (m'.limited (some k)).steps = k := by
      change m'.steps = k
      rw [hafter.steps, hm, Nat.zero_add]
    simp only [hcount]
    rfl
  · rfl

/-- Beyond the limit a run is given up at once, and counts one step more. -/
theorem run_of_lt {i : Instruction} (hi : m.image.get? m.ip = some i) (hk : m.options.stepLimit = some k) (hsteps : k < m.steps) :
    m.run = (.error (.stepLimit k), m.counted (m.steps + 1)) := by
  have hlast : m.lastStep = k := by rw [lastStep, hk, Option.getD_some]
  have hnone : advance (m.lastStep - m.steps) m = (none, m) := by
    rw [hlast, Nat.sub_eq_zero_of_le (Nat.le_of_lt hsteps), advance, hi]
  rw [run, hnone]
  simp only [hlast, counted]

/-- **A run that has been given up is given up again** and again. -/
theorem rerun_of_lt {i : Instruction} (hi : m.image.get? m.ip = some i) (hk : m.options.stepLimit = some k)
    (hsteps : k < m.steps) (n : Nat) : m.rerun n = (.error (.stepLimit k), m.counted (m.steps + 1 + n)) := by
  induction n generalizing m with
  | zero => exact run_of_lt hi hk hsteps
  | succ n ih =>
    rw [rerun, run_of_lt hi hk hsteps, ih (m := m.counted (m.steps + 1)) hi hk (Nat.lt_succ_of_lt hsteps)]
    change (_, m.counted (m.steps + 1 + 1 + n)) = _
    rw [Nat.add_right_comm _ 1 n, Nat.add_assoc _ n 1]

/-- Where the run does not end within `k` steps, it goes on behind them. -/
theorem exists_after (h : ∀ a m', m.Stops a m' → m.steps + k < m'.steps) : ∃ m', m.After k m' := by
  rcases hadvance : advance k m with ⟨_ | a, m'⟩
  · exact ⟨m', hadvance⟩
  · have hle := (counts_advance k m).2.1
    rw [hadvance] at hle
    exact absurd (h a m' ⟨k, hadvance⟩) (Nat.not_lt.2 hle)

/-- A machine on which nothing has been counted is given up behind `k` instructions if `k` is the limit, and whenever a run
is called again. -/
theorem After.rerun (h : m.After k m') (hm : m.steps = 0) (n : Nat) :
    (m.limited (some k)).rerun n = (.error (.stepLimit k), (m'.limited (some k)).counted (k + 1 + n)) := by
  obtain ⟨i, hi⟩ := h.exists_instruction
  have hadvance : advance k m = (none, m') := h
  have hfirst : (m.limited (some k)).run = (.error (.stepLimit k), (m'.limited (some k)).counted (k + 1)) := by
    rw [run_of_limit hm, hadvance]
  cases n with
  | zero => exact hfirst
  | succ n =>
    rw [Machine.rerun, hfirst,
      rerun_of_lt (m := (m'.limited (some k)).counted (k + 1)) hi rfl (Nat.lt_succ_self k) n]
    change (_, (m'.limited (some k)).counted (k + 1 + 1 + n)) = _
    rw [Nat.add_right_comm _ 1 n, Nat.add_assoc _ n 1]

/-- Under a greater limit more is printed. -/
theorem output_run_le (hm : m.steps = 0) (hk : n ≤ k) :
    (m.limited (some n)).run.2.output.toList <+: (m.limited (some k)).run.2.output.toList := by
  have houtput : ∀ k, (m.limited (some k)).run.2.output = (advance k m).2.output := by
    intro k
    rw [run_of_limit hm]
    rcases advance k m with ⟨_ | a, m'⟩ <;> rfl
  rw [houtput, houtput]
  exact output_advance_le hk m

/-! ## Runs without a limit -/

/-- Without a limit a run is what it comes to by itself, as long as its steps can be counted. -/
theorem Stops.run {a : Answer} (h : m.Stops a m') (hfree : m.options.stepLimit = none) (hsteps : m'.steps < UInt64.size) :
    m.run = (a, m') := by
  obtain ⟨n, hn⟩ := h
  have hlast : m.lastStep = UInt64.size - 1 := by rw [lastStep, hfree, Option.getD_none]
  have hle := (counts_advance n m).1
  rw [hn] at hle
  have hadvance : advance (m.lastStep - m.steps) m = (some a, m') := advance_of_steps_le hn (by
    dsimp only at hle
    omega)
  rw [Machine.run, hadvance]

theorem stops_of_run {v : Option Int64} (h : m.run = (.ok v, m')) : m.Stops (.ok v) m' := by
  unfold Machine.run at h
  rcases hadvance : advance (m.lastStep - m.steps) m with ⟨_ | a, m₁⟩ <;> rw [hadvance] at h <;> cases h
  exact ⟨_, hadvance⟩

/-- Behind a run that has ended with a value, another one ends with the same value. -/
theorem stops_again {v : Option Int64} (h : m.Stops (.ok v) m') :
    ∃ steps, steps ≤ m'.steps + 1 ∧ m'.Stops (.ok v) (m'.counted steps) := by
  obtain ⟨n, hn⟩ := h
  obtain rfl : v = m'.value? := value_of_advance hn
  rcases halts_of_advance hn with hi | hi
  · exact ⟨m'.steps, Nat.le_succ _, 0, advance_of_none hi 0⟩
  · refine ⟨m'.steps + 1, Nat.le_refl _, 1, ?_⟩
    rw [advance, hi]
    rfl

/-- So does a run that is called after any number of others. -/
theorem rerun_of_stops {v : Option Int64} (h : m.Stops (.ok v) m') (hfree : m'.options.stepLimit = none)
    (hsteps : m'.steps + n + 1 < UInt64.size) :
    ∃ steps ≤ m'.steps + n + 1, m'.rerun n = (.ok v, m'.counted steps) := by
  induction n generalizing m m' with
  | zero =>
    obtain ⟨steps, hle, hagain⟩ := stops_again h
    exact ⟨steps, hle, hagain.run hfree (by change steps < _; omega)⟩
  | succ n ih =>
    obtain ⟨steps, hle, hagain⟩ := stops_again h
    have hroom : (m'.counted steps).steps + n + 1 < UInt64.size := by
      change steps + _ + _ < _
      omega
    obtain ⟨steps', hle', hrun⟩ := ih hagain hfree hroom
    have hle' : steps' ≤ steps + n + 1 := hle'
    refine ⟨steps', by omega, ?_⟩
    rw [rerun, hagain.run hfree (by change steps < _; omega)]
    exact hrun

/-- **A limit of steps only truncates.** Let `free` be the machine without a limit. If its run ends within `k` steps, the
run with the limit `k` ends with the same answer in the same state. If not, the run with the limit is given up in the state
in which `free` is after `k` instructions, with one step more counted; so is every run that is called after it, and nothing
but the count of steps changes. So outputs grow with the limit. Where `free` has ended with a value, every run that is
called after it ends with this value and changes nothing but the count. The count has 64 bits, and counts as long as they
have room. -/
theorem run_limited (image : Image) (M k : Nat) :
    let free := start image ⟨M, none⟩
    let bound (k : Nat) := start image ⟨M, some k⟩
    (∀ a m, free.Stops a m → m.steps ≤ k → (bound k).run = (a, m.limited (some k))) ∧
    ((∀ a m, free.Stops a m → k < m.steps) → ∃ m, free.After k m ∧ m.steps = k ∧
      ∀ n, k + 1 + n < UInt64.size →
        (bound k).rerun n = (.error (.stepLimit k), (m.limited (some k)).counted (k + 1 + n))) ∧
    (∀ k', k ≤ k' → (bound k).run.2.output.toList <+: (bound k').run.2.output.toList) ∧
    (∀ a m, free.Stops a m → m.steps < UInt64.size → free.run = (a, m)) ∧
    ∀ v m n, free.run = (.ok v, m) → m.steps + n + 1 < UInt64.size →
      ∃ steps ≤ m.steps + n + 1, m.rerun n = (.ok v, m.counted steps) := by
  intro free bound
  have hzero : free.steps = 0 := rfl
  refine ⟨fun a m ⟨n, hn⟩ hk => ?_, fun hlong => ?_, fun k' hk => output_run_le hzero hk, fun a m h => h.run rfl,
    fun v m n hrun => ?_⟩
  · have hadvance : advance k free = (some a, m) := advance_of_steps_le hn (by rwa [hzero, Nat.zero_add])
    change (free.limited (some k)).run = _
    rw [run_of_limit hzero, hadvance]
  · obtain ⟨m, hafter⟩ := exists_after (m := free) (k := k) fun a m h => by
      rw [hzero, Nat.zero_add]
      exact hlong a m h
    exact ⟨m, hafter, by rw [hafter.steps, hzero, Nat.zero_add], fun n _ => hafter.rerun hzero n⟩
  · have hfree : m.options.stepLimit = none := by
      have hoptions := (like_run free).options
      rw [hrun] at hoptions
      exact congrArg MachineOptions.stepLimit hoptions
    exact rerun_of_stops (stops_of_run hrun) hfree

/-- A number is printed and another one left: four steps are enough, two are too few. -/
theorem run_limited_print : ∃ image : Image, Image.load [.push 7, .print, .push 8, .halt] = .ok image ∧
    (∃ m, (start image ⟨4, none⟩).Stops (.ok (some 8)) m ∧ m.steps ≤ 4 ∧
      (start image ⟨4, some 4⟩).run = (.ok (some 8), m.limited (some 4)) ∧
      ∃ steps ≤ m.steps + 5 + 1, m.rerun 5 = (.ok (some 8), m.counted steps)) ∧
    (∃ m, (start image ⟨4, none⟩).After 2 m ∧ ∀ n, 2 + 1 + n < UInt64.size →
      (start image ⟨4, some 2⟩).rerun n = (.error (.stepLimit 2), (m.limited (some 2)).counted (2 + 1 + n))) ∧
    (start image ⟨4, some 2⟩).run.2.output.toList <+: (start image ⟨4, some 4⟩).run.2.output.toList := by
  let image : Image := ⟨#[.push 7, .print, .push 8, .halt], ∅⟩
  let m := (advance 4 (start image ⟨4, none⟩)).2
  have hadvance : advance 4 (start image ⟨4, none⟩) = (some (.ok (some 8)), m) := rfl
  have hstops : (start image ⟨4, none⟩).Stops (.ok (some 8)) m := ⟨4, hadvance⟩
  have hsteps : m.steps = 4 := rfl
  obtain ⟨hwithin, -, -, hrun, hagain⟩ := run_limited image 4 4
  obtain ⟨-, hbeyond, houtput, -, -⟩ := run_limited image 4 2
  have hlong : ∀ a m', (start image ⟨4, none⟩).Stops a m' → 2 < m'.steps := by
    intro a m' ⟨n, hn⟩
    obtain ⟨-, rfl⟩ := advance_unique hadvance hn
    exact hsteps ▸ (by decide)
  obtain ⟨m', hafter, -, hrerun⟩ := hbeyond hlong
  exact ⟨image, rfl, ⟨m, hstops, Nat.le_of_eq hsteps, hwithin _ _ hstops (Nat.le_of_eq hsteps),
    hagain _ _ 5 (hrun _ _ hstops (hsteps ▸ (by decide))) (hsteps ▸ (by decide))⟩, ⟨m', hafter, hrerun⟩,
    houtput 4 (by decide)⟩

end Machine

end Fool
