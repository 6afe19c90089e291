import Fool.Proofs.Machine.Onward
import Fool.Proofs.Machine.Will

/-!
# Stack and heap stay apart

An instruction that neither writes to memory nor moves the end of the heap changes at most the cell on top of the stack
(`tame_execute`), and a push is refused where it would reach the heap. With what an `Orderly` step does to the heap this
says all that a step can do (`Turn`), and gives an invariant of runs: the heap ends no higher than the stack begins
(`Apart`), and what lies in it stays as it is. `Tidy.separate` says so of a whole run.

One cell is not protected: that at `hp`, between the moment at which a word is written to it and the moment at which
`hp` moves on. The word is lost if the stack takes the last free cell in between.
-/

namespace Fool

/-- The instruction does nothing but put a value on the stack. -/
def Instruction.isPush : Instruction → Bool
  | .push _ | .pushLabel _ | .load _ => true
  | _ => false

namespace Machine

variable {α β : Type} {m m' m'' : Machine} {h j k d : Nat} {i : Instruction} {V : Course}

/-- The heap ends at `h`, and the stack begins no lower. -/
structure Apart (m : Machine) (h : Nat) : Prop where
  bound : m.options.memorySize < Address.bound
  size : m.memory.size = m.options.memorySize
  hp : m.hp = Int64.ofNat h
  le : h ≤ m.sp
  inside : m.sp ≤ m.options.memorySize

theorem Apart.unique {h' : Nat} (hm : m.Apart h) (hm' : m.Apart h') : h = h' := by
  have hbound := hm.bound
  have hle := hm.le
  have hle' := hm'.le
  have hinside := hm.inside
  exact Address.ofNat_injective (by omega) (by omega) (hm.hp.symm.trans hm'.hp)

/-! ## Parts of an instruction -/

/-- Nothing is written, and at most something is taken off the stack. -/
structure Pops (m m' : Machine) : Prop where
  memory : m'.memory = m.memory
  hp : m'.hp = m.hp
  options : m'.options = m.options
  sp : m.sp ≤ m'.sp
  inside : m.sp ≤ m.memory.size → m'.sp ≤ m.memory.size

/-- At most the cell on top of the stack is written. -/
structure Pushes (m m' : Machine) : Prop where
  hp : m'.hp = m.hp
  options : m'.options = m.options
  cells : ∀ a, a ≠ m'.sp → m'.cell? a = m.cell? a
  apart : ∀ h, m.Apart h → m'.Apart h

theorem Pops.refl (m : Machine) : Pops m m := ⟨rfl, rfl, rfl, Nat.le_refl _, id⟩

theorem Pops.trans (h : Pops m m') (h' : Pops m' m'') : Pops m m'' := by
  refine ⟨h'.memory.trans h.memory, h'.hp.trans h.hp, h'.options.trans h.options, Nat.le_trans h.sp h'.sp, fun hin => ?_⟩
  have := h'.inside (h.memory ▸ h.inside hin)
  rwa [h.memory] at this

/-- Then something may be put on the stack. -/
theorem Pops.pushes (h : Pops m m') (h' : Pushes m' m'') : Pushes m m'' where
  hp := h'.hp.trans h.hp
  options := h'.options.trans h.options
  cells a ha := (h'.cells a ha).trans (by rw [cell?, cell?, h.memory])
  apart n ha := h'.apart n ⟨h.options ▸ ha.bound, by rw [h.memory, h.options, ha.size], h.hp.trans ha.hp,
    Nat.le_trans ha.le h.sp, by rw [h.options, ← ha.size]; exact h.inside (ha.size ▸ ha.inside)⟩

theorem Pushes.refl (m : Machine) : Pushes m m := ⟨rfl, rfl, fun _ _ => rfl, fun _ => id⟩

/-- A step that only takes something off the stack. -/
def Idle (step : MachineM α) : Prop := ∀ m a m', step m = .ok a m' → Pops m m'

/-- A step that also puts something on it. -/
def Tame (step : MachineM α) : Prop := ∀ m a m', step m = .ok a m' → Pushes m m'

theorem idle_pure (a : α) : Idle (pure a) := by
  intro m a' m' hrun
  cases hrun
  exact .refl m

theorem Idle.tame {step : MachineM α} (h : Idle step) : Tame step := fun m a m' hrun => (h m a m' hrun).pushes (.refl m')

theorem tame_fail (fault : Nat → MachineError) : Tame (fail fault : MachineM α) := by
  intro m a m' hrun
  cases hrun

/-- The first step of two, when both give an answer. -/
theorem ok_of_bind {step : MachineM α} {next : α → MachineM β} {b : β} (hrun : (step >>= next) m = .ok b m'') :
    ∃ a m', step m = .ok a m' ∧ next a m' = .ok b m'' := by
  change EStateM.bind step next m = _ at hrun
  unfold EStateM.bind at hrun
  cases hs : step m with
  | error e m' =>
    rw [hs] at hrun
    cases hrun
  | ok a m' =>
    rw [hs] at hrun
    exact ⟨a, m', rfl, hrun⟩

/-- What is read is the machine itself. -/
theorem ok_of_get {next : Machine → MachineM β} {b : β} (hrun : (EStateM.get >>= next) m = .ok b m') :
    next m m = .ok b m' := hrun

theorem idle_bind {step : MachineM α} {next : α → MachineM β} (hstep : Idle step) (hnext : ∀ a, Idle (next a)) :
    Idle (step >>= next) := by
  intro m b m'' hrun
  obtain ⟨a, m', hfirst, hsecond⟩ := ok_of_bind hrun
  exact (hstep m a m' hfirst).trans (hnext a m' b m'' hsecond)

theorem tame_bind {step : MachineM α} {next : α → MachineM β} (hstep : Idle step) (hnext : ∀ a, Tame (next a)) :
    Tame (step >>= next) := by
  intro m b m'' hrun
  obtain ⟨a, m', hfirst, hsecond⟩ := ok_of_bind hrun
  exact (hstep m a m' hfirst).pushes (hnext a m' b m'' hsecond)

theorem tame_get {next : Machine → MachineM β} (hnext : ∀ m, Tame (next m)) : Tame (EStateM.get >>= next) :=
  fun m b m' hrun => hnext m m b m' hrun

theorem idle_modify {f : Machine → Machine} (hf : ∀ m, Pops m (f m)) : Idle (modify f : MachineM Unit) := by
  intro m a m' hrun
  cases hrun
  exact hf m

/-- What is taken off the stack was on top of it. -/
theorem ok_of_pop {v : Int64} (hrun : pop m = .ok v m') :
    m.top? = some v ∧ m.sp < m.memory.size ∧ m' = { m with sp := m.sp + 1 } := by
  unfold pop at hrun
  cases htop : m.top? with
  | none =>
    rw [htop] at hrun
    cases hrun
  | some w =>
    rw [htop] at hrun
    cases hrun
    exact ⟨rfl, (Array.getElem?_eq_some_iff.1 htop).1, rfl⟩

theorem idle_pop : Idle pop := by
  intro m v m' hrun
  obtain ⟨-, hlt, rfl⟩ := ok_of_pop hrun
  exact ⟨rfl, rfl, rfl, Nat.le_succ _, fun _ => hlt⟩

theorem ok_of_address {v : Int64} {a : Nat} (hrun : address v m = .ok a m') :
    index? v m.options.memorySize = some a ∧ m' = m := by
  unfold address at hrun
  split at hrun <;> cases hrun
  exact ⟨‹_›, rfl⟩

theorem idle_address (v : Int64) : Idle (address v) := by
  intro m a m' hrun
  obtain ⟨-, rfl⟩ := ok_of_address hrun
  exact .refl _

theorem idle_jumpTarget (v : Int64) : Idle (jumpTarget v) := by
  intro m a m' hrun
  unfold jumpTarget at hrun
  split at hrun <;> cases hrun
  exact .refl m

theorem idle_fetch (a : Nat) : Idle (fetch a) := by
  intro m v m' hrun
  cases hrun
  exact .refl m

/-- A push is refused where the heap ends. -/
theorem tame_push (v : Int64) (b : β) : Tame (push v >>= fun _ => pure b) := by
  intro m b' m'' hrun
  obtain ⟨u, m', hrun, hpure⟩ := ok_of_bind hrun
  cases hpure
  unfold push at hrun
  split at hrun
  · cases hrun
  · rename_i hroom
    rw [not_or] at hroom
    obtain ⟨hpos, hroom⟩ := hroom
    cases hrun
    refine ⟨rfl, rfl, fun a ha => Array.getElem?_setIfInBounds_ne (Ne.symm ha), fun h hm => ?_⟩
    have hbound := hm.bound
    have hle := hm.le
    have hinside := hm.inside
    rw [hm.hp, Address.ofNat_le_iff (by omega) (by omega)] at hroom
    refine ⟨hbound, Array.size_setIfInBounds.trans hm.size, hm.hp, ?_, ?_⟩ <;> dsimp only <;> omega

/-- **At most the cell on top of the stack is written** by an instruction that leaves the heap as it is. -/
theorem tame_execute (hi : i.sparesHeap = true) : Tame (execute i) := by
  refine tame_get fun m => ?_
  cases i with
  | push v => exact tame_push v _
  | pushLabel l => exact tame_get fun _ => tame_push _ _
  | pop => exact (idle_bind idle_pop fun _ => idle_pure _).tame
  | arith op =>
    refine tame_bind idle_pop fun right => tame_bind idle_pop fun left => ?_
    split
    · exact tame_push _ _
    · exact tame_fail _
  | jump l => exact tame_get fun _ => (idle_pure _).tame
  | branch on l =>
    refine tame_bind idle_pop fun right => tame_bind idle_pop fun left => ?_
    split
    · exact tame_get fun _ => (idle_pure _).tame
    · exact (idle_pure _).tame
  | label l => exact (idle_pure _).tame
  | load r => exact tame_get fun _ => tame_push _ _
  | store r =>
    refine (idle_bind idle_pop fun v => idle_bind (idle_modify fun m => ?_) fun _ => idle_pure _).tame
    cases r with
    | hp => cases hi
    | _ => exact ⟨rfl, rfl, rfl, Nat.le_refl _, id⟩
  | copyFp =>
    refine (idle_bind (idle_modify fun m => ?_) fun _ => idle_pure _).tame
    exact ⟨rfl, rfl, rfl, Nat.le_refl _, id⟩
  | loadWord =>
    exact tame_bind idle_pop fun v => tame_bind (idle_address v) fun a => tame_bind (idle_fetch a) fun w => tame_push w _
  | storeWord => cases hi
  | jumpSub =>
    refine (idle_bind idle_pop fun v => idle_bind (idle_modify fun m => ?_) fun _ => idle_bind (idle_jumpTarget v) fun _ =>
      idle_pure _).tame
    exact ⟨rfl, rfl, rfl, Nat.le_refl _, id⟩
  | print =>
    refine (idle_bind idle_pop fun v => idle_bind (idle_modify fun m => ?_) fun _ => idle_pure _).tame
    exact ⟨rfl, rfl, rfl, Nat.le_refl _, id⟩
  | halt => exact (idle_pure _).tame

/-! ## One instruction -/

/-- What an orderly step does to stack and heap. -/
inductive Turn (h : Nat) (m m' : Machine) : Prop
  /-- At most the cell on top of the stack is written. -/
  | spare {i : Instruction} : m.image.get? m.ip = some i → i.sparesHeap = true → m'.Apart h →
      (∀ a, a ≠ m'.sp → m'.cell? a = m.cell? a) → Turn h m m'
  /-- A word is written behind the heap, below the stack. -/
  | write : m.image.get? m.ip = some .storeWord → m'.Apart h → (∀ a, a ≠ h → m'.cell? a = m.cell? a) → h < m'.sp →
      m.top? = some m.hp → Raises m'.image m'.ip → Turn h m m'
  /-- The heap is enlarged by a cell. -/
  | raise : m.image.get? m.ip = some (.store .hp) → m'.Apart (h + 1) → m'.memory = m.memory → Turn h m m'

/-- An instruction after which the run goes on. -/
theorem ok_of_step (hrun : step i m = (none, m')) :
    ∃ next m₁, execute i { m with steps := m.steps + 1 } = .ok (some next) m₁ ∧ m' = { m₁ with ip := next } := by
  unfold step at hrun
  rcases hexecute : execute i { m with steps := m.steps + 1 } with ⟨_ | next, m₁⟩ | ⟨e, m₁⟩ <;> rw [hexecute] at hrun <;>
    cases hrun
  exact ⟨next, m₁, rfl, rfl⟩

/-- A word is written. -/
theorem turn_storeWord (hm : m.Apart h) (hi : m.image.get? m.ip = some .storeWord) (htop : m.top? = some m.hp) (hraises : Raises m.image (m.ip + 1))
    (hrun : step .storeWord m = (none, m')) : Turn h m m' := by
  obtain ⟨next, m₁, hexecute, rfl⟩ := ok_of_step hrun
  obtain ⟨v, m₂, hpop, hexecute⟩ := ok_of_bind (ok_of_get hexecute)
  obtain ⟨hv, -, rfl⟩ := ok_of_pop hpop
  obtain ⟨value, m₃, hpop', hexecute⟩ := ok_of_bind hexecute
  obtain ⟨-, hlt, rfl⟩ := ok_of_pop hpop'
  obtain ⟨a, m₄, haddress, hexecute⟩ := ok_of_bind hexecute
  obtain ⟨hindex, rfl⟩ := ok_of_address haddress
  cases hexecute
  obtain rfl : m.hp = v := Option.some.inj (htop.symm.trans hv)
  have hbound := hm.bound
  have hle := hm.le
  have hsize := hm.size
  dsimp only at hlt hindex
  rw [hm.hp, Address.index?_ofNat (by omega) (by omega)] at hindex
  obtain rfl := Option.some.inj hindex
  refine .write hi ⟨hbound, ?_, hm.hp, ?_, ?_⟩ (fun b hb => Array.getElem?_setIfInBounds_ne (Ne.symm hb)) ?_ htop hraises
  · exact Array.size_setIfInBounds.trans hsize
  · dsimp only
    omega
  · dsimp only
    omega
  · dsimp only
    omega

/-- The end of the heap moves. -/
theorem turn_store (hm : m.Apart h) (hi : m.image.get? m.ip = some (.store .hp))
    (hraise : ∃ h, m.hp = Int64.ofNat h ∧ m'.hp = Int64.ofNat (h + 1) ∧ h < m'.sp)
    (hrun : step (.store .hp) m = (none, m')) : Turn h m m' := by
  obtain ⟨next, m₁, hexecute, rfl⟩ := ok_of_step hrun
  obtain ⟨b, hb, hhp, hlt⟩ := hraise
  obtain ⟨v, m₂, hpop, hexecute⟩ := ok_of_bind (ok_of_get hexecute)
  obtain ⟨-, hinside, rfl⟩ := ok_of_pop hpop
  cases hexecute
  have hbound := hm.bound
  have hsize := hm.size
  have hle := hm.le
  change m.sp < m.memory.size at hinside
  change b < m.sp + 1 at hlt
  obtain rfl : h = b := Address.ofNat_injective (by omega) (by omega) (hm.hp.symm.trans hb)
  exact .raise hi ⟨hbound, hsize, hhp, hlt, show m.sp + 1 ≤ m.options.memorySize by omega⟩ rfl

/-- **What an orderly step can do.** -/
theorem Orderly.turn (hm : m.Apart h) (ho : Orderly m m') : Turn h m m' := by
  obtain ⟨i, hi, hrun, hwrite, hraise⟩ := ho
  by_cases hspares : i.sparesHeap = true
  · obtain ⟨next, m₁, hexecute, rfl⟩ := ok_of_step hrun
    have hpushes := tame_execute hspares _ _ _ hexecute
    have happart := hpushes.apart h ⟨hm.bound, hm.size, hm.hp, hm.le, hm.inside⟩
    exact .spare hi hspares ⟨happart.bound, happart.size, happart.hp, happart.le, happart.inside⟩ hpushes.cells
  · obtain rfl | rfl : i = .storeWord ∨ i = .store .hp := by
      cases i with
      | storeWord => exact .inl rfl
      | store r =>
        cases r with
        | hp => exact .inr rfl
        | _ => exact absurd rfl hspares
      | _ => exact absurd rfl hspares
    · exact turn_storeWord hm hi (hwrite rfl).1 (hwrite rfl).2 hrun
    · exact turn_store hm hi (hraise rfl) hrun

/-! ## Runs -/

/-- The first instructions of the run are orderly. -/
def Tidy (m : Machine) (k : Nat) : Prop := ∀ j < k, ∀ m₁ m₂, m.After j m₁ → m.After (j + 1) m₂ → Orderly m₁ m₂

/-- What is tidy is so from each of its stages on. -/
theorem Tidy.drop (ht : m.Tidy k) (h : m.After j m') (hj : j ≤ k) : m'.Tidy (k - j) := fun n hn m₁ m₂ h₁ h₂ =>
  ht (j + n) (by omega) m₁ m₂ (h.add h₁) (h.add h₂)

theorem Tidy.mono (ht : m.Tidy k) (hj : j ≤ k) : m.Tidy j := fun n hn => ht n (by omega)

/-- The first step of a tidy run. -/
theorem Tidy.first (ht : m.Tidy (k + 1)) (h : m.After (k + 1) m'') :
    ∃ m', Orderly m m' ∧ m.After 1 m' ∧ m'.Tidy k ∧ m'.After k m'' := by
  obtain ⟨m', hfirst, hrest⟩ := h.between (Nat.succ_le_succ (Nat.zero_le k))
  obtain ⟨m₀, hzero, -⟩ := hfirst.between (Nat.zero_le _)
  obtain ⟨rfl, -⟩ := after_zero.1 hzero
  exact ⟨m', ht 0 (Nat.succ_pos k) _ _ hzero hfirst, hfirst, ht.drop hfirst (Nat.succ_le_succ (Nat.zero_le k)), hrest⟩

/-- What lies in the heap stays as it is, and the heap only grows. -/
theorem Tidy.apart (ht : m.Tidy k) (hk : m.After k m') (hm : m.Apart h) :
    ∃ h', h ≤ h' ∧ m'.Apart h' ∧ ∀ a < h, m'.cell? a = m.cell? a := by
  induction k generalizing m h with
  | zero =>
    obtain ⟨rfl, -⟩ := after_zero.1 hk
    exact ⟨h, Nat.le_refl h, hm, fun _ _ => rfl⟩
  | succ k ih =>
    obtain ⟨m₁, horderly, -, ht, hk⟩ := ht.first hk
    cases horderly.turn hm with
    | spare _ _ hm₁ hcells =>
      obtain ⟨h', hle, hm', hkept⟩ := ih ht hk hm₁
      have hsp := hm₁.le
      exact ⟨h', hle, hm', fun a ha => (hkept a ha).trans (hcells a (by omega))⟩
    | write _ hm₁ hcells =>
      obtain ⟨h', hle, hm', hkept⟩ := ih ht hk hm₁
      exact ⟨h', hle, hm', fun a ha => (hkept a ha).trans (hcells a (Nat.ne_of_lt ha))⟩
    | raise _ hm₁ hmemory =>
      obtain ⟨h', hle, hm', hkept⟩ := ih ht hk hm₁
      refine ⟨h', by omega, hm', fun a ha => (hkept a (by omega)).trans ?_⟩
      rw [cell?, cell?, hmemory]

theorem Raises.cases {image : Image} {ip : Nat} (h : Raises image ip) : image.get? ip = some (.store .hp) ∨
    Raises image (ip + 1) ∧ ∃ i ∈ [.load .hp, .push 1, .arith .add], image.get? ip = some i := by
  obtain ⟨n, hstore, hbefore⟩ := h
  cases n with
  | zero => exact .inl hstore
  | succ n =>
    refine .inr ⟨⟨n, ?_, fun j hj => ?_⟩, hbefore 0 (Nat.succ_pos n)⟩ <;> rw [Nat.add_assoc, Nat.add_comm 1]
    · exact hstore
    · exact hbefore (j + 1) (Nat.succ_lt_succ hj)

/-- Until `hp` moves on, it is about to do so. -/
theorem Raises.next (h : Raises m.image m.ip) (hi : m.image.get? m.ip = some i) (hspares : i.sparesHeap = true)
    (hstep : step i m = (none, m')) : Raises m'.image m'.ip := by
  rcases h.cases with hstore | ⟨hraises, i', hmem, hi'⟩
  · obtain rfl := Option.some.inj (hi.symm.trans hstore)
    cases hspares
  · obtain rfl := Option.some.inj (hi.symm.trans hi')
    have himage : m'.image = m.image := by
      have := (like_step i m).image
      rwa [hstep] at this
    have hplain : i ≠ .jumpSub ∧ i.jump? = none := by
      simp only [List.mem_cons, List.not_mem_nil, or_false] at hmem
      rcases hmem with rfl | rfl | rfl <;> exact ⟨nofun, rfl⟩
    obtain ⟨next, m₁, hexecute, rfl⟩ := ok_of_step hstep
    rcases next_of_execute hplain.1 hexecute next rfl with rfl | ⟨l, hl, -⟩
    · rw [himage]
      exact hraises
    · rw [hplain.2] at hl
      cases hl

end Machine

end Fool
