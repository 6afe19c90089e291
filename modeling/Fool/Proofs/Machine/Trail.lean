import Mathlib.Data.List.Forall2
import Fool.Proofs.Machine.Limit

/-!
# The way that a run takes

A `Trail` leads from one machine to another and names every machine on the way. `Goes` says how every run goes on from a
configuration through the code in view: it takes a way through configurations to a last one, or it goes ahead in this
code to an instruction that fails (`Machine.FailsIn`). Ways are put together by `Goes.bind`.

`Leads` says that every run goes ahead from address to address (`Config.Ahead`), so that it comes to each at most once.
It is shown backwards (`backward_leads`). Nothing is assumed of what lies in memory, so a word that is loaded can be any
(`leads_loadWord`).
-/

namespace Fool

namespace Machine

/-- The run executes one instruction of each of the machines `ms`, and so comes from the first machine to the last. -/
inductive Trail : Machine → List Machine → Machine → Prop
  | done {m : Machine} : Trail m [] m
  | step {m m₁ m' : Machine} {ms : List Machine} {i : Instruction} : m.image.get? m.ip = some i →
      step i m = (none, m₁) → Trail m₁ ms m' → Trail m (m :: ms) m'

/-- **The run goes ahead** through addresses from `lo` on and below `hi`, to an instruction that fails. -/
def FailsIn (m : Machine) (lo hi : Nat) : Prop :=
  ∃ ms m' e m'', Trail m ms m' ∧ ((ms ++ [m']).map ip).Pairwise (· < ·) ∧ (∀ m₁ ∈ ms ++ [m'], lo ≤ m₁.ip ∧ m₁.ip < hi) ∧
    advance 1 m' = (some (.error e), m'')

variable {m m' m'' : Machine} {ms ms' : List Machine} {lo mid hi : Nat}

theorem Trail.append (h : Trail m ms m') (h' : Trail m' ms' m'') : Trail m (ms ++ ms') m'' := by
  induction h with
  | done => exact h'
  | step hi hstep _ ih => exact .step hi hstep (ih h')

/-- Behind the way the run goes on as from its last machine. -/
theorem Trail.advance (h : Trail m ms m') (n : Nat) : m.advance (n + ms.length) = m'.advance n := by
  induction h with
  | done => rfl
  | @step m _ _ ms _ hi hstep _ ih =>
    rw [List.length_cons, ← Nat.add_assoc, Machine.advance, hi]
    dsimp only
    rw [hstep]
    exact ih

/-- A way ahead may lie in front of one that fails. -/
theorem Trail.failsIn (h : Trail m ms m') (hsorted : (ms.map ip).Pairwise (· < ·))
    (hms : ∀ m₁ ∈ ms, lo ≤ m₁.ip ∧ m₁.ip < mid) (hlo : lo ≤ mid) (hfails : m'.FailsIn mid hi) : m.FailsIn lo hi := by
  obtain ⟨ms', m₂, e, m₃, htrail, hsorted', hms', hadvance⟩ := hfails
  have hlast := hms' m₂ (List.mem_append_right ms' List.mem_cons_self)
  refine ⟨ms ++ ms', m₂, e, m₃, h.append htrail, ?_, fun m₁ hm₁ => ?_, hadvance⟩
  · rw [List.append_assoc, List.map_append, List.pairwise_append]
    refine ⟨hsorted, hsorted', fun a ha b hb => ?_⟩
    obtain ⟨m₁, hm₁, rfl⟩ := List.mem_map.1 ha
    obtain ⟨m₁', hm₁', rfl⟩ := List.mem_map.1 hb
    exact Nat.lt_of_lt_of_le (hms m₁ hm₁).2 (hms' m₁' hm₁').1
  · rw [List.append_assoc] at hm₁
    rcases List.mem_append.1 hm₁ with hm₁ | hm₁
    · exact ⟨(hms m₁ hm₁).1, by have := (hms m₁ hm₁).2; omega⟩
    · exact ⟨by have := (hms' m₁ hm₁).1; omega, (hms' m₁ hm₁).2⟩

/-- A run that fails on its way ends with the fault. -/
theorem FailsIn.stops (h : m.FailsIn lo hi) : ∃ e m', m.Stops (.error e) m' := by
  obtain ⟨ms, m', e, m'', htrail, -, -, hadvance⟩ := h
  exact ⟨e, m'', 1 + ms.length, (htrail.advance 1).trans hadvance⟩

/-- The way is the same under every limit of steps. -/
theorem Trail.limited (h : Trail m ms m') (limit : Option Nat) :
    Trail (m.limited limit) (ms.map (Machine.limited limit)) (m'.limited limit) := by
  induction h with
  | done => exact .done
  | @step m _ _ _ i hi hstep _ ih => exact .step (i := i) hi (by rw [step_limited, hstep]) ih

theorem FailsIn.limited (h : m.FailsIn lo hi) (limit : Option Nat) : (m.limited limit).FailsIn lo hi := by
  obtain ⟨ms, m', e, m'', htrail, hsorted, hms, hadvance⟩ := h
  refine ⟨ms.map (Machine.limited limit), m'.limited limit, e, m''.limited limit, htrail.limited limit, ?_, ?_, ?_⟩
  · rw [← List.map_singleton, ← List.map_append, List.map_map]
    exact hsorted
  · intro m₁ hm₁
    rw [← List.map_singleton, ← List.map_append] at hm₁
    obtain ⟨m₂, hm₂, rfl⟩ := List.mem_map.1 hm₁
    exact hms m₂ hm₂
  · rw [advance_limited, hadvance]

end Machine

section Goes

open Machine

/-- The way goes ahead through addresses from `lo` up to `hi`. -/
structure Config.Ahead (lo hi : Nat) (c : Config) (cs : List Config) (c' : Config) : Prop where
  le : lo ≤ hi
  first : c ∈ cs ++ [c']
  sorted : (cs.map Config.ip).Pairwise (· < ·)
  within : ∀ d ∈ cs, lo ≤ d.ip ∧ d.ip < hi

variable {image : View} {M lo mid : Nat} {Q Q' : List Config → Config → Prop} {c c' : Config} {i : Instruction}
variable {ip t : Nat} {s s' H H' out out' : List Int64} {R R' : Register → Int64} {e : MachineError}
variable {m : Machine} {ms : List Machine} {cs : List Config}

/-- **The ways that runs take from a configuration,** or they fail in the part of the code behind the address. -/
def Goes (image : View) (M lo : Nat) (Q : List Config → Config → Prop) (c : Config) : Prop :=
  ∀ m, Shows image.whole M m c → m.FailsIn lo image.stop ∨
    ∃ ms m' cs c', Trail m ms m' ∧ List.Forall₂ (Shows image.whole M) ms cs ∧ Shows image.whole M m' c' ∧ Q cs c'

/-- Machines that are in configurations stand where these do. -/
theorem map_ip_eq {P : Machine → Config → Prop} (hP : ∀ {m c}, P m c → m.ip = c.ip) (hms : List.Forall₂ P ms cs) :
    ms.map Machine.ip = cs.map Config.ip := by
  induction hms with
  | nil => rfl
  | cons hm _ ih => exact congrArg₂ List.cons (hP hm) ih

theorem goes_done (h : Q [] c) : Goes image M lo Q c := fun m hm => .inr ⟨[], m, [], c, .done, .nil, hm, h⟩

/-- **One way behind another.** The first one goes ahead. -/
theorem Goes.bind (h : Goes image M lo Q c) (hQ : ∀ cs c', Q cs c' → Config.Ahead lo mid c cs c' ∧
      Goes image M mid (fun cs' c'' => Q' (cs ++ cs') c'') c') : Goes image M lo Q' c := by
  intro m hm
  rcases h m hm with hfails | ⟨ms, m', cs, c', htrail, hms, hm', hq⟩
  · exact .inl hfails
  · obtain ⟨hahead, hgoes⟩ := hQ cs c' hq
    rcases hgoes m' hm' with hfails | ⟨ms', m'', cs', c'', htrail', hms', hm'', hq'⟩
    · have hips := map_ip_eq (fun hm => hm.ip) hms
      refine .inl (htrail.failsIn (hips ▸ hahead.sorted) (fun m₁ hm₁ => ?_) hahead.le hfails)
      obtain ⟨d, hd, hip⟩ := List.mem_map.1 (hips ▸ List.mem_map_of_mem hm₁ : m₁.ip ∈ cs.map Config.ip)
      exact hip ▸ hahead.within d hd
    · exact .inr ⟨ms ++ ms', m'', cs ++ cs', c'', htrail.append htrail', List.rel_append hms hms', hm'', hq'⟩

theorem Goes.mono (h : Goes image M lo Q c) (hQ : ∀ cs c', Q cs c' → Q' cs c') : Goes image M lo Q' c := by
  intro m hm
  rcases h m hm with hfails | ⟨ms, m', cs, c', htrail, hms, hm', hq⟩
  · exact .inl hfails
  · exact .inr ⟨ms, m', cs, c', htrail, hms, hm', hQ cs c' hq⟩

/-- One instruction, of which it may depend on the machine what it does. -/
theorem goes_of_execute (hi : image.get? ip = some i) (hlt : ip < mid) (h : ∀ m, Shows image.whole M m ⟨ip, s, H, R, out⟩ →
      ∃ t s' H' R' out' m', Machine.execute i m = .ok (some t) m' ∧ Shows image.whole M m' ⟨ip, s', H', R', out'⟩ ∧
        Goes image M mid (fun cs c' => Q (⟨ip, s, H, R, out⟩ :: cs) c') ⟨t, s', H', R', out'⟩) :
    Goes image M ip Q ⟨ip, s, H, R, out⟩ := by
  intro m hm
  obtain ⟨t, s', H', R', out', m', hrun, hm', hgoes⟩ := h _ (hm.counted (m.steps + 1))
  have hshows : Shows image.whole M { m' with ip := t } ⟨t, s', H', R', out'⟩ := hm'.jumped t
  have htrail : Trail m [m] { m' with ip := t } :=
    .step (hm.instruction.trans (View.whole_of_get? hi)) (by rw [step, hrun]) .done
  rcases hgoes _ hshows with hfails | ⟨ms, m'', cs, c'', hrest, hms, hm'', hq⟩
  · have hip : m.ip = ip := hm.ip
    exact .inl (htrail.failsIn (List.pairwise_singleton _ _) (by simp [hip, hlt]) (Nat.le_of_lt hlt) hfails)
  · exact .inr ⟨m :: ms, m'', _ :: cs, c'', htrail.append hrest, .cons hm hms, hm'', hq⟩

theorem goes_of_does (hi : image.get? ip = some i) (hlt : ip < mid)
    (h : Does image.whole M (Machine.execute i) ⟨ip, s, H, R, out⟩ (some t) ⟨ip, s', H', R', out'⟩)
    (hgoes : Goes image M mid (fun cs c' => Q (⟨ip, s, H, R, out⟩ :: cs) c') ⟨t, s', H', R', out'⟩) :
    Goes image M ip Q ⟨ip, s, H, R, out⟩ := by
  refine goes_of_execute hi hlt fun m hm => ?_
  obtain ⟨m', hrun, hm'⟩ := h m hm
  exact ⟨t, s', H', R', out', m', hrun, hm', hgoes⟩

/-- One instruction that fails. -/
theorem goes_of_fails (hi : image.get? ip = some i) (hlo : lo ≤ ip)
    (h : Fails image.whole M (Machine.execute i) ⟨ip, s, H, R, out⟩ e) : Goes image M lo Q ⟨ip, s, H, R, out⟩ := by
  intro m hm
  obtain ⟨m', hrun, -⟩ := h _ (hm.counted (m.steps + 1))
  have hip : m.ip = ip := hm.ip
  refine .inl ⟨[], m, e, m', .done, List.pairwise_singleton _ _, by simp [hip, hlo, View.lt_stop hi], ?_⟩
  exact advance_of_execute (hm.instruction.trans (View.whole_of_get? hi)) hrun

/-- The ways are the same under every limit of steps. -/
theorem Goes.limited {m : Machine} (h : Goes image M lo Q c) (hm : Shows image.whole M (m.limited none) c) :
    m.FailsIn lo image.stop ∨
    ∃ ms m' cs c', Trail m ms m' ∧ List.Forall₂ (fun m c => Shows image.whole M (m.limited none) c) ms cs ∧
      Shows image.whole M (m'.limited none) c' ∧ Q cs c' := by
  have hunlimited : ∀ {m' c'}, Shows image.whole M m' c' →
      Shows image.whole M ((m'.limited m.options.stepLimit).limited none) c' := fun hm' =>
    ⟨hm'.bound, hm'.image, congrArg (fun o => MachineOptions.mk o.memorySize none) hm'.options, hm'.size, hm'.memory,
      hm'.sp, hm'.ip, hm'.registers, hm'.output⟩
  rcases h _ hm with hfails | ⟨ms, m', cs, c', htrail, hms, hm', hq⟩
  · exact .inl (hfails.limited m.options.stepLimit)
  · refine .inr ⟨_, _, cs, c', htrail.limited m.options.stepLimit, ?_, hunlimited hm', hq⟩
    exact List.forall₂_map_left_iff.2 (hms.imp fun _ _ => hunlimited)

/-! ## Machines whose stack and heap are apart -/

/-- Stack and heap of a configuration are apart. -/
theorem Machine.Shows.apart {image : Image} (h : Shows image M m c) (hhp : c.regs .hp = Int64.ofNat c.heap.length) :
    m.Apart c.heap.length := by
  obtain ⟨free, hfree⟩ := h.memory
  have hlength := h.length_free hfree
  have hsp := h.sp
  have hM : m.options.memorySize = M := congrArg MachineOptions.memorySize h.options
  exact ⟨hM ▸ h.bound, h.size.trans hM.symm, (h.registers .hp).trans hhp, by omega, by omega⟩

/-- A machine whose stack and heap are apart is in a configuration, the limit of steps apart. -/
theorem Machine.Apart.shows {m : Machine} {h : Nat} (hm : m.Apart h) : Shows m.image m.options.memorySize (m.limited none)
    ⟨m.ip, m.memory.toList.drop m.sp, m.memory.toList.take h, m.get, m.output.toList⟩ := by
  have hinside := hm.inside
  have hsize := hm.size
  refine ⟨hm.bound, rfl, rfl, hm.size, ⟨(m.memory.toList.take m.sp).drop h, ?_⟩, ?_, rfl, fun r => by cases r <;> rfl, rfl⟩
  · have htake : m.memory.toList.take h = (m.memory.toList.take m.sp).take h := by
      rw [List.take_take, Nat.min_eq_left hm.le]
    show m.memory.toList = _
    rw [htake, List.take_append_drop, List.take_append_drop]
  · show m.sp + (m.memory.toList.drop m.sp).length = m.options.memorySize
    rw [List.length_drop, Array.length_toList]
    omega

end Goes

/-! ## Going ahead -/

namespace Config.Ahead

variable {lo mid hi : Nat} {c c' c'' d : Config} {cs cs' : List Config}

/-- What lies on the first part of the way lies on the whole of it. -/
theorem mem_append_left (h : Ahead mid hi c' cs' c'') (hd : d ∈ cs ++ [c']) : d ∈ (cs ++ cs') ++ [c''] := by
  rw [List.append_assoc]
  rcases List.mem_append.1 hd with hd | hd
  · exact List.mem_append_left _ hd
  · obtain rfl := List.mem_singleton.1 hd
    exact List.mem_append_right _ h.first

theorem trans (h : Ahead lo mid c cs c') (h' : Ahead mid hi c' cs' c'') : Ahead lo hi c (cs ++ cs') c'' where
  le := Nat.le_trans h.le h'.le
  first := h'.mem_append_left h.first
  sorted := by
    rw [List.map_append, List.pairwise_append]
    refine ⟨h.sorted, h'.sorted, fun a ha b hb => ?_⟩
    obtain ⟨d, hd, rfl⟩ := List.mem_map.1 ha
    obtain ⟨d', hd', rfl⟩ := List.mem_map.1 hb
    have hlt := (h.within d hd).2
    have hle := (h'.within d' hd').1
    omega
  within d hd := by
    have hle := h.le
    have hle' := h'.le
    rcases List.mem_append.1 hd with hd | hd
    · have := h.within d hd
      omega
    · have := h'.within d hd
      omega

/-- The way may begin further down. -/
theorem mono (h : Ahead mid hi c cs c') (hlo : lo ≤ mid) : Ahead lo hi c cs c' where
  le := Nat.le_trans hlo h.le
  first := h.first
  sorted := h.sorted
  within d hd := ⟨Nat.le_trans hlo (h.within d hd).1, (h.within d hd).2⟩

/-- One instruction. -/
theorem single (hlt : c.ip < mid) : Ahead c.ip mid c [c] c' where
  le := Nat.le_of_lt hlt
  first := List.mem_cons_self
  sorted := by simp
  within d hd := by
    obtain rfl := List.mem_singleton.1 hd
    exact ⟨Nat.le_refl _, hlt⟩

end Config.Ahead

section Leads

open Machine

variable {image : View} {M hi ip t : Nat} {P : Config → Prop} {c : Config} {i : Instruction} {op : Arith}
variable {v left right : Int64} {s s' H H' out out' : List Int64} {R R' : Register → Int64}

/-- **Every run goes ahead** from the configuration to one with the property, through addresses below `hi`. -/
def Leads (image : View) (M hi : Nat) (P : Config → Prop) (c : Config) : Prop :=
  Goes image M c.ip (fun cs c' => Config.Ahead c.ip hi c cs c' ∧ P c') c

theorem leads_done (hhi : c.ip ≤ hi) (h : P c) : Leads image M hi P c :=
  goes_done ⟨⟨hhi, List.mem_cons_self, .nil, nofun⟩, h⟩

/-- What is in use never exceeds memory. -/
theorem leads_of_used (h : c.used ≤ M → Leads image M hi P c) : Leads image M hi P c := fun m hm => h hm.used_le m hm

/-- An instruction behind which the run goes on further ahead. -/
theorem leads_of_does (hi' : image.get? ip = some i)
    (h : Does image.whole M (Machine.execute i) ⟨ip, s, H, R, out⟩ (some t) ⟨ip, s', H', R', out'⟩) (hlt : ip < t)
    (hleads : Leads image M hi P ⟨t, s', H', R', out'⟩) : Leads image M hi P ⟨ip, s, H, R, out⟩ :=
  goes_of_does hi' hlt h (hleads.mono fun _ _ ⟨hahead, hp⟩ => ⟨(Config.Ahead.single hlt).trans hahead, hp⟩)

/-- **Where runs lead is shown backwards,** and every fault is allowed. -/
theorem backward_leads : Backward image M (fun _ _ => True) (Leads image M hi P) where
  used := leads_of_used
  ahead hi' _ _ hlt h hleads := leads_of_does hi' h hlt hleads
  fails hi' h _ := goes_of_fails hi' (Nat.le_refl _) h
  write hi' _ _ h := leads_of_does hi' does_execute_storeWord (Nat.lt_succ_self _) h
  raise hi' _ h := leads_of_does hi' (does_execute_store .hp) (Nat.lt_succ_self _) h

/-- An operation, which fails just if it is a division by zero. -/
theorem leads_arith (hi' : image.get? ip = some (.arith op)) (hlow : Low R H)
    (h : ∀ v, op.result? left right = some v → Leads image M hi P ⟨ip + 1, v :: s, H, R, out⟩) :
    Leads image M hi P ⟨ip, right :: left :: s, H, R, out⟩ := by
  cases hv : op.result? left right with
  | none => exact goes_of_fails hi' (Nat.le_refl ip) (fails_execute_arith hv)
  | some v => exact backward_leads.arith hi' hv hlow (h v hv)

/-- An address that is none is a fault; from any other some word is loaded. -/
theorem leads_loadWord (hi' : image.get? ip = some .loadWord) (hlow : Low R H)
    (h : ∀ w, Leads image M hi P ⟨ip + 1, w :: s, H, R, out⟩) : Leads image M hi P ⟨ip, v :: s, H, R, out⟩ := by
  cases hv : index? v M with
  | none => exact goes_of_fails hi' (Nat.le_refl ip) (fails_execute_loadWord hv)
  | some a =>
    refine goes_of_execute hi' (Nat.lt_succ_self ip) fun m hm => ?_
    obtain ⟨w, m', hrun, hm'⟩ := exists_execute_loadWord hm hv hlow
    refine ⟨ip + 1, w :: s, H, R, out, m', hrun, hm', (h w).mono fun _ _ ⟨hahead, hp⟩ => ?_⟩
    exact ⟨(Config.Ahead.single (Nat.lt_succ_self ip)).trans hahead, hp⟩

end Leads

end Fool
