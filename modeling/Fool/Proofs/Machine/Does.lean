import Fool.Proofs.Machine.Config

/-!
# What instructions do to a configuration

`Does` says what a step makes of every machine that is in a configuration, and `Fails` that it fails there. There is one
lemma for each step of which instructions are made (`does_push`, `does_pop`, …), and from these one for each kind of
instruction (`does_execute_push`, `does_execute_loadWord`, …).
-/

namespace Fool

/-! ## Steps of an instruction -/

section Does

open Machine

variable {α β : Type} (image : Image) (M : Nat)

/-- The step gives the answer and makes of every machine in the one configuration a machine in the other. -/
def Does (step : MachineM α) (c : Config) (a : α) (c' : Config) : Prop :=
  ∀ m, Shows image M m c → ∃ m', step m = .ok a m' ∧ Shows image M m' c'

/-- The step fails in the configuration. -/
def Fails (step : MachineM α) (c : Config) (e : MachineError) : Prop :=
  ∀ m, Shows image M m c → ∃ m', step m = .error e m' ∧ m'.output.toList = c.output

variable {image M} {ip a : Nat} {v w : Int64} {s H out : List Int64} {R : Register → Int64} {c c' c'' : Config}

theorem bind_of_ok {step : MachineM α} {f : α → MachineM β} {x : α} {m m' : Machine} (h : step m = .ok x m') :
    (step >>= f) m = f x m' := by
  show EStateM.bind step f m = _
  unfold EStateM.bind
  rw [h]

theorem bind_of_error {step : MachineM α} {f : α → MachineM β} {e : MachineError} {m m' : Machine}
    (h : step m = .error e m') : (step >>= f) m = .error e m' := by
  show EStateM.bind step f m = _
  unfold EStateM.bind
  rw [h]

theorem does_pure (x : α) : Does image M (pure x) c x c := fun m h => ⟨m, rfl, h⟩

theorem does_bind {step : MachineM α} {f : α → MachineM β} {x : α} {y : β} (h : Does image M step c x c')
    (h' : Does image M (f x) c' y c'') : Does image M (step >>= f) c y c'' := by
  intro m hm
  obtain ⟨m', hrun, hm'⟩ := h m hm
  obtain ⟨m'', hrun', hm''⟩ := h' m' hm'
  exact ⟨m'', (bind_of_ok hrun).trans hrun', hm''⟩

theorem fails_bind {step : MachineM α} {f : α → MachineM β} {x : α} {e : MachineError} (h : Does image M step c x c')
    (h' : Fails image M (f x) c' e) (hout : c'.output = c.output) : Fails image M (step >>= f) c e := by
  intro m hm
  obtain ⟨m', hrun, hm'⟩ := h m hm
  obtain ⟨m'', hrun', hm''⟩ := h' m' hm'
  exact ⟨m'', (bind_of_ok hrun).trans hrun', hm''.trans hout⟩

theorem fails_bind_left {step : MachineM α} {f : α → MachineM β} {e : MachineError} (h : Fails image M step c e) :
    Fails image M (step >>= f) c e := by
  intro m hm
  obtain ⟨m', hrun, hm'⟩ := h m hm
  exact ⟨m', bind_of_error hrun, hm'⟩

theorem does_get {f : Machine → MachineM β} {y : β} (h : ∀ m, Shows image M m c → Does image M (f m) c y c') :
    Does image M (EStateM.get >>= f) c y c' := fun m hm => h m hm m hm

theorem fails_get {f : Machine → MachineM β} {e : MachineError}
    (h : ∀ m, Shows image M m c → Fails image M (f m) c e) : Fails image M (EStateM.get >>= f) c e :=
  fun m hm => h m hm m hm

theorem fails_fail {fault : Nat → MachineError} : Fails image M (fail fault : MachineM α) c (fault c.ip) :=
  fun m hm => ⟨m, by rw [fail, hm.ip], hm.output⟩

/-- A value goes into the highest free cell. -/
theorem does_push (v : Int64) {a : Nat} (hhp : R .hp = Int64.ofNat a) (ha : a ≤ H.length)
    (hroom : s.length + H.length < M) : Does image M (push v) ⟨ip, s, H, R, out⟩ () ⟨ip, v :: s, H, R, out⟩ := by
  intro m hm
  obtain ⟨free, hfree⟩ := hm.memory
  have hsp := hm.length_free hfree
  have hlength := hm.sp
  dsimp only at hfree hsp hlength
  have hbound := hm.bound
  have hnot : ¬(m.sp = 0 ∨ Int64.ofNat m.sp ≤ m.hp) := by
    have hreg : m.hp = R .hp := hm.registers .hp
    rw [hreg, hhp, Address.ofNat_le_iff (by omega) (by omega)]
    omega
  have hne : free ≠ [] := by
    rintro rfl
    rw [List.length_nil] at hsp
    omega
  obtain ⟨front, last, rfl⟩ : ∃ front last, free = front ++ [last] :=
    ⟨free.dropLast, free.getLast hne, (List.dropLast_append_getLast hne).symm⟩
  rw [List.length_append, List.length_singleton] at hsp
  refine ⟨{ m with sp := m.sp - 1, memory := m.memory.setIfInBounds (m.sp - 1) v }, by rw [push, if_neg hnot],
    hm.bound, hm.image, hm.options, ?_, ⟨front, ?_⟩, ?_, hm.ip, hm.registers, hm.output⟩
  · rw [Array.size_setIfInBounds]
    exact hm.size
  · have hcells : H ++ (front ++ [last]) ++ s = (H ++ front) ++ last :: s := by simp
    have hindex : m.sp - 1 = (H ++ front).length := by
      rw [List.length_append]
      omega
    rw [Array.toList_setIfInBounds, hfree, hcells, hindex, List.set_append_right _ _ (Nat.le_refl _), Nat.sub_self]
    rfl
  · show m.sp - 1 + (v :: s).length = M
    rw [List.length_cons]
    omega

/-- The stack must not grow into the heap. -/
theorem fails_push (v : Int64) (hhp : R .hp = Int64.ofNat H.length) (hroom : M ≤ s.length + H.length) :
    Fails image M (push v) ⟨ip, s, H, R, out⟩ (.stackOverflow ip) := by
  intro m hm
  have hlength := hm.sp
  have hused := hm.used_le
  have hbound := hm.bound
  dsimp only [Config.used] at hlength hused
  have hfull : m.sp = 0 ∨ Int64.ofNat m.sp ≤ m.hp := by
    right
    have hreg : m.hp = R .hp := hm.registers .hp
    rw [hreg, hhp, Address.ofNat_le_iff (by omega) (by omega)]
    omega
  refine ⟨m, ?_, hm.output⟩
  rw [push, if_pos hfull, hm.ip]

theorem does_pop : Does image M pop ⟨ip, v :: s, H, R, out⟩ v ⟨ip, s, H, R, out⟩ := by
  intro m hm
  obtain ⟨free, hfree⟩ := hm.memory
  have hlength := hm.sp
  dsimp only at hfree hlength
  rw [List.length_cons] at hlength
  refine ⟨{ m with sp := m.sp + 1 }, ?_, hm.bound, hm.image, hm.options, hm.size, ⟨free ++ [v], ?_⟩, ?_, hm.ip,
    hm.registers, hm.output⟩
  · rw [pop, hm.top]
    rfl
  · rw [hfree]
    simp
  · show m.sp + 1 + s.length = M
    omega

theorem does_put (r : Register) (v : Int64) : Does image M (modify fun m => m.put r v) ⟨ip, s, H, R, out⟩ ()
    ⟨ip, s, H, Function.update R r v, out⟩ := by
  intro m hm
  refine ⟨m.put r v, rfl, ?_⟩
  have hregs : ∀ r', (m.put r v).get r' = Function.update R r v r' := by
    intro r'
    have := hm.registers r'
    cases r <;> cases r' <;> first | rfl | exact this
  have := hm
  cases r <;> exact ⟨this.bound, this.image, this.options, this.size, this.memory, this.sp, this.ip, hregs, this.output⟩

theorem does_address (ha : a < M) : Does image M (address (Int64.ofNat a)) c a c := by
  intro m hm
  refine ⟨m, ?_, hm⟩
  have hbound := hm.bound
  rw [address, hm.options, Address.index?_ofNat ha (by omega)]

theorem fails_address (hv : index? v M = none) : Fails image M (address v) c (.invalidAddress v c.ip) := by
  intro m hm
  refine ⟨m, ?_, hm.output⟩
  rw [address, hm.options, hv, hm.ip]

theorem does_fetch (h : Cell M c.stack c.heap a w) : Does image M (fetch a) c w c := by
  intro m hm
  refine ⟨m, ?_, hm⟩
  rw [fetch, (hm.cell h).2]
  rfl

/-- A word goes into the first cell behind the heap. -/
theorem does_write (hroom : s.length + H.length < M) :
    Does image M (write H.length w) ⟨ip, s, H, R, out⟩ () ⟨ip, s, H ++ [w], R, out⟩ := by
  intro m hm
  obtain ⟨free, hfree⟩ := hm.memory
  have hsp := hm.length_free hfree
  have hlength := hm.sp
  dsimp only at hfree hsp hlength
  cases free with
  | nil =>
    rw [List.length_nil] at hsp
    omega
  | cons first free =>
    refine ⟨_, rfl, hm.bound, hm.image, hm.options, ?_, ⟨free, ?_⟩, hm.sp, hm.ip, hm.registers, hm.output⟩
    · rw [Array.size_setIfInBounds]
      exact hm.size
    · rw [Array.toList_setIfInBounds, hfree, List.append_assoc, List.set_append_right _ _ (Nat.le_refl _), Nat.sub_self]
      simp

/-- What is popped right above a heap that reaches up to the stack is left in the cell behind the heap. -/
theorem does_pop_full (hfull : s.length + H.length + 1 = M) :
    Does image M pop ⟨ip, v :: s, H, R, out⟩ v ⟨ip, s, H ++ [v], R, out⟩ := by
  intro m hm
  obtain ⟨m', hrun, hm'⟩ := does_pop m hm
  obtain ⟨free, hfree⟩ := hm.memory
  have hlength := hm.length_free hfree
  have hsp := hm.sp
  dsimp only at hfree hlength hsp
  rw [List.length_cons] at hsp
  obtain rfl : free = [] := List.length_eq_zero_iff.1 (by omega)
  have hmemory : m'.memory = m.memory := by
    rw [pop, hm.top] at hrun
    cases hrun
    rfl
  refine ⟨m', hrun, hm'.bound, hm'.image, hm'.options, hm'.size, ⟨[], ?_⟩, hm'.sp, hm'.ip, hm'.registers, hm'.output⟩
  rw [hmemory, hfree]
  simp

/-- What is in use never exceeds memory. -/
theorem does_of_used {step : MachineM α} {x : α} (h : c.used ≤ M → Does image M step c x c') :
    Does image M step c x c' := fun m hm => h hm.used_le m hm

/-- The last cell of the heap may be counted among the free ones. -/
theorem does_forget {step : MachineM α} {x : α} (h : Does image M step ⟨ip, s, H, R, out⟩ x c') :
    Does image M step ⟨ip, s, H ++ [w], R, out⟩ x c' := by
  intro m hm
  obtain ⟨free, hfree⟩ := hm.memory
  refine h m ⟨hm.bound, hm.image, hm.options, hm.size, ⟨w :: free, ?_⟩, hm.sp, hm.ip, hm.registers, hm.output⟩
  rw [hfree]
  simp

theorem does_jumpTarget (ha : a < image.size) (hsize : image.size ≤ Address.bound) :
    Does image M (jumpTarget (Int64.ofNat a)) c a c := by
  intro m hm
  refine ⟨m, ?_, hm⟩
  rw [jumpTarget, hm.image, Address.index?_ofNat ha hsize]

end Does

/-- The value that an instruction puts on the stack, if it does nothing else. -/
def Instruction.pushed? (image : Image) (R : Register → Int64) : Instruction → Option Int64
  | .push v => some v
  | .pushLabel l => (image.addressOf? l).map Int64.ofNat
  | .load r => some (R r)
  | _ => none

/-- The register `hp` lies no higher than the end of the heap. -/
def Low (R : Register → Int64) (H : List Int64) : Prop := ∃ a, a ≤ H.length ∧ R .hp = Int64.ofNat a

theorem low_of_eq {R : Register → Int64} {H : List Int64} (h : R .hp = Int64.ofNat H.length) : Low R H :=
  ⟨H.length, Nat.le_refl _, h⟩

/-! ## What an instruction does -/

section Execute

open Machine

variable {image : Image} {M ip a t : Nat} {i : Instruction} {v w left right : Int64} {s H out : List Int64}
variable {R : Register → Int64} {l : String}

/-- Where there is room, a value is put on the stack. -/
theorem does_execute_push (hv : i.pushed? image R = some v) (hlow : Low R H) (hroom : s.length + H.length < M) :
    Does image M (Machine.execute i) ⟨ip, s, H, R, out⟩ (some (ip + 1)) ⟨ip, v :: s, H, R, out⟩ := by
  obtain ⟨a, ha, hhp⟩ := hlow
  refine does_get fun m hm => ?_
  have hip : m.ip = ip := hm.ip
  cases i <;> simp only [Instruction.pushed?, Option.some.injEq, Option.map_eq_some_iff, reduceCtorEq] at hv
  case push v' =>
    subst hv
    rw [hip]
    exact does_bind (does_push _ hhp ha hroom) (does_pure _)
  case pushLabel l =>
    obtain ⟨t, ht, rfl⟩ := hv
    refine does_get fun m' hm' => ?_
    have hlabel : m'.addressOf l = t := by rw [addressOf, hm'.image, ht, Option.getD_some]
    rw [hip]
    dsimp only
    rw [hlabel]
    exact does_bind (does_push _ hhp ha hroom) (does_pure _)
  case load r =>
    subst hv
    refine does_get fun m' hm' => ?_
    rw [hip]
    dsimp only
    rw [hm'.registers r]
    exact does_bind (does_push _ hhp ha hroom) (does_pure _)

/-- Where there is none, it is refused. -/
theorem fails_execute_push (hv : i.pushed? image R = some v) (hhp : R .hp = Int64.ofNat H.length)
    (hroom : M ≤ s.length + H.length) : Fails image M (Machine.execute i) ⟨ip, s, H, R, out⟩ (.stackOverflow ip) := by
  refine fails_get fun m hm => ?_
  have hfails : ∀ v, Fails image M (push v) ⟨ip, s, H, R, out⟩ (.stackOverflow ip) := fun v => fails_push v hhp hroom
  cases i <;> simp only [Instruction.pushed?, reduceCtorEq] at hv
  case push => exact fails_bind_left (hfails _)
  case pushLabel => exact fails_get fun _ _ => fails_bind_left (hfails _)
  case load => exact fails_get fun _ _ => fails_bind_left (hfails _)

theorem does_execute_pop :
    Does image M (Machine.execute .pop) ⟨ip, v :: s, H, R, out⟩ (some (ip + 1)) ⟨ip, s, H, R, out⟩ := by
  refine does_get fun m hm => ?_
  rw [hm.ip]
  exact does_bind does_pop (does_pure _)

theorem does_execute_arith {op : Arith} (hv : op.result? left right = some v) (hlow : Low R H) :
    Does image M (Machine.execute (.arith op)) ⟨ip, right :: left :: s, H, R, out⟩ (some (ip + 1))
      ⟨ip, v :: s, H, R, out⟩ := by
  obtain ⟨a, ha, hhp⟩ := hlow
  refine does_of_used fun hused => does_get fun m hm => ?_
  simp only [Config.used, List.length_cons] at hused
  rw [hm.ip]
  refine does_bind does_pop (does_bind does_pop ?_)
  rw [hv]
  exact does_bind (does_push _ hhp ha (by omega)) (does_pure _)

theorem fails_execute_arith {op : Arith} (hv : op.result? left right = none) :
    Fails image M (Machine.execute (.arith op)) ⟨ip, right :: left :: s, H, R, out⟩ (.divisionByZero ip) := by
  refine fails_get fun m hm => fails_bind does_pop ?_ rfl
  refine fails_bind does_pop ?_ rfl
  rw [hv]
  exact fails_fail

theorem does_execute_jump (hl : image.addressOf? l = some t) :
    Does image M (Machine.execute (.jump l)) ⟨ip, s, H, R, out⟩ (some t) ⟨ip, s, H, R, out⟩ := by
  refine does_get fun _ _ => does_get fun m hm => ?_
  have hlabel : m.addressOf l = t := by rw [addressOf, hm.image, hl, Option.getD_some]
  rw [hlabel]
  exact does_pure _

theorem does_execute_branch {on : Comparison} (hl : image.addressOf? l = some t) :
    Does image M (Machine.execute (.branch on l)) ⟨ip, right :: left :: s, H, R, out⟩
      (some (if on.holds left right then t else ip + 1)) ⟨ip, s, H, R, out⟩ := by
  refine does_get fun m hm => does_bind does_pop (does_bind does_pop ?_)
  rw [hm.ip]
  split
  · refine does_get fun m' hm' => ?_
    have hlabel : m'.addressOf l = t := by rw [addressOf, hm'.image, hl, Option.getD_some]
    rw [hlabel]
    exact does_pure _
  · exact does_pure _

theorem does_execute_label :
    Does image M (Machine.execute (.label l)) ⟨ip, s, H, R, out⟩ (some (ip + 1)) ⟨ip, s, H, R, out⟩ := by
  refine does_get fun m hm => ?_
  rw [hm.ip]
  exact does_pure _

theorem does_execute_store (r : Register) : Does image M (Machine.execute (.store r)) ⟨ip, v :: s, H, R, out⟩ (some (ip + 1))
    ⟨ip, s, H, Function.update R r v, out⟩ := by
  refine does_get fun m hm => ?_
  rw [hm.ip]
  exact does_bind does_pop (does_bind (does_put r v) (does_pure _))

theorem does_execute_copyFp (ha : a + s.length = M) : Does image M (Machine.execute .copyFp) ⟨ip, s, H, R, out⟩
    (some (ip + 1)) ⟨ip, s, H, Function.update R .fp (Int64.ofNat a), out⟩ := by
  refine does_get fun m hm => ?_
  rw [hm.ip]
  refine does_bind (x := ()) (fun m' hm' => ?_) (does_pure _)
  obtain ⟨m'', hrun, hm''⟩ := does_put .fp (Int64.ofNat a) m' hm'
  have hsp : m'.sp = a := by
    have := hm'.sp
    dsimp only at this
    omega
  refine ⟨m'', ?_, hm''⟩
  rw [← hrun, ← hsp]
  rfl

theorem does_execute_loadWord (hw : Cell M s H a w) (hlow : Low R H) : Does image M (Machine.execute .loadWord)
    ⟨ip, Int64.ofNat a :: s, H, R, out⟩ (some (ip + 1)) ⟨ip, w :: s, H, R, out⟩ := by
  obtain ⟨b, hb, hhp⟩ := hlow
  refine does_of_used fun hused => does_get fun m hm => ?_
  simp only [Config.used, List.length_cons] at hused
  have ha : a < M := (hm.cell (hw.grow (List.suffix_cons _ _) (List.prefix_refl _))).1
  rw [hm.ip]
  exact does_bind does_pop (does_bind (does_address ha) (does_bind (does_fetch hw)
    (does_bind (does_push _ hhp hb (by omega)) (does_pure _))))

/-- Where nothing is known of the cell, some word is loaded from it. -/
theorem exists_execute_loadWord {m : Machine} (hm : Shows image M m ⟨ip, v :: s, H, R, out⟩) (hv : index? v M = some a)
    (hlow : Low R H) : ∃ w m', Machine.execute .loadWord m = .ok (some (ip + 1)) m' ∧
      Shows image M m' ⟨ip, w :: s, H, R, out⟩ := by
  obtain ⟨b, hb, hhp⟩ := hlow
  have hused := hm.used_le
  simp only [Config.used, List.length_cons] at hused
  obtain ⟨m₁, hpop, hm₁⟩ := does_pop m hm
  have haddress : address v m₁ = .ok a m₁ := by rw [address, hm₁.options, hv]
  have hfetch : fetch a m₁ = .ok ((m₁.cell? a).getD 0) m₁ := rfl
  obtain ⟨m₂, hpush, hm₂⟩ := does_push ((m₁.cell? a).getD 0) hhp hb (by omega) m₁ hm₁
  refine ⟨_, m₂, ?_, hm₂⟩
  have hip : m.ip = ip := hm.ip
  calc Machine.execute .loadWord m
      = (pop >>= fun v => address v >>= fun a => fetch a >>= fun w => push w >>= fun _ => pure (some (m.ip + 1))) m := rfl
    _ = (push ((m₁.cell? a).getD 0) >>= fun _ => pure (some (m.ip + 1))) m₁ := by
      rw [bind_of_ok hpop, bind_of_ok haddress, bind_of_ok hfetch]
    _ = .ok (some (ip + 1)) m₂ := by
      rw [bind_of_ok hpush, hip]
      rfl

theorem fails_execute_loadWord (hv : index? v M = none) :
    Fails image M (Machine.execute .loadWord) ⟨ip, v :: s, H, R, out⟩ (.invalidAddress v ip) :=
  fails_get fun _ _ => fails_bind does_pop (fails_bind_left (fails_address hv)) rfl

/-- A word is written behind the heap. -/
theorem does_execute_storeWord : Does image M (Machine.execute .storeWord)
    ⟨ip, Int64.ofNat H.length :: v :: s, H, R, out⟩ (some (ip + 1)) ⟨ip, s, H ++ [v], R, out⟩ := by
  refine does_of_used fun hused => does_get fun m hm => ?_
  simp only [Config.used, List.length_cons] at hused
  rw [hm.ip]
  exact does_bind does_pop (does_bind does_pop (does_bind (does_address (by omega))
    (does_bind (does_write (by omega)) (does_pure _))))

theorem does_execute_jumpSub (ht : t < image.size) (hsize : image.size ≤ Address.bound) : Does image M
    (Machine.execute .jumpSub) ⟨ip, Int64.ofNat t :: s, H, R, out⟩ (some t)
    ⟨ip, s, H, Function.update R .ra (Int64.ofNat (ip + 1)), out⟩ := by
  refine does_get fun m hm => ?_
  rw [hm.ip]
  exact does_bind does_pop (does_bind (does_put .ra _) (does_bind (does_jumpTarget ht hsize) (does_pure _)))

theorem does_execute_print : Does image M (Machine.execute .print) ⟨ip, v :: s, H, R, out⟩ (some (ip + 1))
    ⟨ip, s, H, R, out ++ [v]⟩ := by
  refine does_get fun m hm => ?_
  rw [hm.ip]
  refine does_bind does_pop (does_bind (x := ()) (fun m' hm' => ?_) (does_pure _))
  refine ⟨{ m' with output := m'.output.push v }, rfl, hm'.bound, hm'.image, hm'.options, hm'.size, hm'.memory, hm'.sp,
    hm'.ip, hm'.registers, ?_⟩
  show (m'.output.push v).toList = out ++ [v]
  rw [Array.toList_push, hm'.output]

end Execute

end Fool
