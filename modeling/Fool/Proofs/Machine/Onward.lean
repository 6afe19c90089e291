import Fool.Proofs.Machine.Steady

/-!
# Runs that only go forward

Where every jump leads further on, an instruction that is no call leads further on too (`lt_ip_of_step`). So a run that
makes no call is over after as many instructions as there are (`advance_of_forward`).
-/

namespace Fool

/-- The label to which an instruction may jump. -/
def Instruction.jump? : Instruction → Option String
  | jump l | branch _ l => some l
  | _ => none

/-- Every jump leads to a place further on. -/
def Image.Forward (image : Image) : Prop :=
  ∀ i x l, image.get? i = some x → x.jump? = some l → ∃ j, image.addressOf? l = some j ∧ i < j

namespace Machine

/-- At some moment of its run the machine calls: it executes `jumpSub`, and the run goes on. -/
def Calls (m : Machine) : Prop :=
  ∃ n m' m'', advance n m = (none, m') ∧ m'.image.get? m'.ip = some .jumpSub ∧ step .jumpSub m' = (none, m'')

variable {α β : Type} {image : Image} {Q : α → Prop} {m m' : Machine}

/-! ## One instruction -/

/-- On a machine with this code the step gives nothing but answers with the property. -/
def Answers (image : Image) (step : MachineM α) (Q : α → Prop) : Prop :=
  ∀ m a m', m.image = image → step m = .ok a m' → Q a

theorem answers_pure {a : α} (h : Q a) : Answers image (pure a) Q := by
  intro m a' m' _ hrun
  cases hrun
  exact h

theorem answers_fail (fault : Nat → MachineError) : Answers image (fail fault : MachineM α) Q := by
  intro m a m' _ hrun
  cases hrun

theorem answers_get {f : Machine → MachineM α} (hf : ∀ m, m.image = image → Answers image (f m) Q) :
    Answers image (EStateM.get >>= f) Q := fun m a m' hm hrun => hf m hm m a m' hm hrun

theorem answers_bind {step : MachineM β} {f : β → MachineM α} (hstep : Changing step)
    (hf : ∀ b, Answers image (f b) Q) : Answers image (step >>= f) Q := by
  intro m a m' hm hrun
  have hlike := hstep.steady m
  change EStateM.bind step f m = _ at hrun
  unfold EStateM.bind at hrun
  cases h : step m with
  | error e m₁ =>
    rw [h] at hrun
    cases hrun
  | ok b m₁ =>
    rw [h] at hrun hlike
    exact hf b m₁ a m' (hlike.image.trans hm) hrun

/-- The machine that a step reads is the one it starts on. -/
theorem answers_of_get {f : Machine → MachineM α} {a : α} (hf : Answers m.image (f m) Q)
    (h : (EStateM.get >>= f) m = .ok a m') : Q a := hf m a m' rfl h

/-- **Where a run goes on behind an instruction:** at the next one, at the label to which it jumps, anywhere behind a call;
and it ends only at `halt`. What holds of all these answers holds of the one that is given. -/
theorem answer_of_execute {i : Instruction} {Q : Option Nat → Prop} {ip : Option Nat} (hnext : Q (some (m.ip + 1)))
    (hjump : ∀ l, i.jump? = some l → Q (some (m.addressOf l))) (hcall : i = .jumpSub → ∀ a, Q (some a))
    (hhalt : i = .halt → Q none) (h : execute i m = .ok ip m') : Q ip := by
  have hon : Answers m.image (pure (some (m.ip + 1))) Q := answers_pure hnext
  have hto : ∀ l, i.jump? = some l → Answers m.image (do return some ((← EStateM.get).addressOf l)) Q :=
    fun l hl => answers_get fun m' hm' => answers_pure (by
      rw [addressOf, hm']
      exact hjump l hl)
  unfold execute at h
  refine answers_of_get (Q := Q) ?_ h
  cases i with
  | push v => exact answers_bind (changing_push v) fun _ => hon
  | pushLabel l => exact answers_get fun m' _ => answers_bind (changing_push _) fun _ => hon
  | pop => exact answers_bind changing_pop fun _ => hon
  | arith op =>
    refine answers_bind changing_pop fun right => answers_bind changing_pop fun left => ?_
    split
    · exact answers_bind (changing_push _) fun _ => hon
    · exact answers_fail _
  | jump l => exact hto l rfl
  | branch on l =>
    refine answers_bind changing_pop fun right => answers_bind changing_pop fun left => ?_
    split
    · exact hto l rfl
    · exact hon
  | label l => exact hon
  | load r => exact answers_get fun m' _ => answers_bind (changing_push _) fun _ => hon
  | store r => exact answers_bind changing_pop fun v => answers_bind (changing_modify fun _ => .register r v) fun _ => hon
  | copyFp => exact answers_bind (changing_modify fun _ => .register .fp _) fun _ => hon
  | loadWord =>
    exact answers_bind changing_pop fun v => answers_bind (changing_address v) fun a =>
      answers_bind (changing_fetch a) fun w => answers_bind (changing_push w) fun _ => hon
  | storeWord =>
    exact answers_bind changing_pop fun v => answers_bind changing_pop fun w => answers_bind (changing_address v) fun a =>
      answers_bind (changing_write a w) fun _ => hon
  | jumpSub =>
    exact answers_bind changing_pop fun v => answers_bind (changing_modify fun _ => .register .ra _) fun _ =>
      answers_bind (changing_jumpTarget v) fun a => answers_pure (hcall rfl a)
  | print =>
    exact answers_bind changing_pop fun v => answers_bind (changing_modify fun _ => .print v) fun _ => hon
  | halt => exact answers_pure (hhalt rfl)

/-- Behind an instruction that is no call comes the next one, or the one to which it jumps. -/
theorem next_of_execute {i : Instruction} {ip : Option Nat} (hcall : i ≠ .jumpSub) (h : execute i m = .ok ip m') :
    ∀ next ∈ ip, next = m.ip + 1 ∨ ∃ l, i.jump? = some l ∧ next = m.addressOf l :=
  answer_of_execute (Q := fun ip => ∀ next ∈ ip, next = m.ip + 1 ∨ ∃ l, i.jump? = some l ∧ next = m.addressOf l)
    (fun _ hn => .inl (Option.some.inj hn).symm) (fun l hl _ hn => .inr ⟨l, hl, (Option.some.inj hn).symm⟩)
    (fun hi => absurd hi hcall) (fun _ _ hn => nomatch hn) h

/-- **Where every jump leads further on, an instruction that is no call does.** -/
theorem lt_ip_of_step {i : Instruction} (hforward : m.image.Forward) (hi : m.image.get? m.ip = some i)
    (hcall : i ≠ .jumpSub) (h : step i m = (none, m')) : m.ip < m'.ip := by
  unfold step at h
  rcases hrun : execute i { m with steps := m.steps + 1 } with ⟨_ | next, m₁⟩ | ⟨e, m₁⟩ <;> rw [hrun] at h <;> cases h
  rcases next_of_execute hcall hrun next rfl with hnext | ⟨l, hl, hnext⟩
  · exact hnext ▸ Nat.lt_succ_self _
  · obtain ⟨j, hj, hlt⟩ := hforward m.ip i l hi hl
    have : next = j := by simpa [addressOf, hj] using hnext
    exact this ▸ hlt

/-! ## Runs -/

/-- A run has one answer. -/
theorem advance_unique {n k : Nat} {a a' : Answer} {m₁ m₂ : Machine} (h : advance n m = (some a, m₁))
    (h' : advance k m = (some a', m₂)) : a = a' ∧ m₁ = m₂ := by
  have hfirst := advance_add h k
  have hsecond := advance_add h' n
  rw [Nat.add_comm, hfirst] at hsecond
  cases hsecond
  exact ⟨rfl, rfl⟩

/-- A machine whose code has no calls makes none. -/
theorem not_calls (h : ∀ i, m.image.get? i ≠ some .jumpSub) : ¬m.Calls := by
  rintro ⟨n, m₁, m₂, hrun, hcode, -⟩
  have himage := (like_advance n m).image
  rw [hrun] at himage
  exact h _ (himage ▸ hcode)

/-- If the run calls after a step, it calls. -/
theorem Calls.of_step {i : Instruction} (hi : m.image.get? m.ip = some i) (h : step i m = (none, m'))
    (hcalls : Calls m') : Calls m := by
  obtain ⟨n, m₁, m₂, hrun, hcode, hstep⟩ := hcalls
  refine ⟨n + 1, m₁, m₂, ?_, hcode, hstep⟩
  unfold advance
  simp only [hi, h]
  exact hrun

/-- A machine that is about to call calls. -/
theorem calls_of_step (hi : m.image.get? m.ip = some .jumpSub) (h : step .jumpSub m = (none, m')) : Calls m := by
  refine ⟨0, m, m', ?_, hi, h⟩
  unfold advance
  simp only [hi]

/-- **Where every jump leads further on, a run that makes no call ends** after as many instructions as are left. -/
theorem advance_of_forward (hforward : m.image.Forward) (hcalls : ¬ Calls m) {n : Nat} (hn : m.image.size ≤ m.ip + n) :
    ∃ answer m', advance n m = (some answer, m') := by
  induction n generalizing m with
  | zero =>
    refine ⟨.ok m.value?, m, ?_⟩
    have hend : m.image.get? m.ip = none := Array.getElem?_eq_none hn
    unfold advance
    rw [hend]
  | succ n ih =>
    unfold advance
    cases hi : m.image.get? m.ip with
    | none => exact ⟨.ok m.value?, m, rfl⟩
    | some i =>
      rcases hs : step i m with ⟨_ | answer, m'⟩
      · have hcall : i ≠ .jumpSub := by
          rintro rfl
          exact hcalls (calls_of_step hi hs)
        have hlt := lt_ip_of_step hforward hi hcall hs
        have himage : m'.image = m.image := by
          have := (like_step i m).image
          rwa [hs] at this
        simp only [hs]
        refine ih (himage ▸ hforward) (fun h => hcalls (h.of_step hi hs)) ?_
        rw [himage]
        omega
      · exact ⟨answer, m', by simp only [hs]⟩

end Machine

end Fool
