import Fool.Proofs.Machine.Backward
import Fool.Proofs.Machine.Nested

/-!
# What a run will come to

`Will Q E c` says how every run goes on from the configuration `c`: it comes to a configuration with `Q`, or it ends
with a fault that `E` allows, or it comes to a collision (`Machine.Collides`). There is one rule for each kind of
instruction; each takes the instruction off the run and leaves what is to be shown of the rest (`will_push`,
`will_pop`, `will_loadWord`, …), taken from what holds of all statements that are shown backwards (`backward_will`) or from
what the instruction does.

Until then the run does not leave a part of the code, calls apart: what is called may be anywhere (`Course`,
`Machine.Comes`). A call is judged by what is called, up to the jump that leaves it (`Machine.Comes.call`).

On the way every step is `Orderly`: `storeWord` writes behind the end of the heap, and `hp` moves on by this cell.
-/

namespace Fool

namespace Machine

/-! ## Many steps -/

/-- The second machine is what some steps make of the first. -/
def Steps (m m' : Machine) : Prop := ∃ n, ∀ k, advance (k + n) m = advance k m'

/-- **A table is overwritten.** The code has just written the last cell of an object and is about to enlarge the heap
by this cell, but the stack reaches down to it: the push of the 1 that is added to `hp` is not refused, for `hp` still
lies below. -/
def Collides (m : Machine) : Prop :=
  ∃ i a, m.ip = i + 3 ∧ m.image.get? i = some .storeWord ∧ m.image.get? (i + 1) = some (.load .hp) ∧
    m.image.get? (i + 2) = some (.load .hp) ∧ m.image.get? (i + 3) = some (.push 1) ∧
    m.hp = Int64.ofNat a ∧ m.sp = a + 1 ∧ m.cell? a ≠ some 1

/-- One instruction after which the run goes on. A word is written to no other cell than that at `hp`, which moves on
right after that; it moves no further than behind this cell, and not onto the stack. -/
def Orderly (m m' : Machine) : Prop :=
  ∃ i, m.image.get? m.ip = some i ∧ step i m = (none, m') ∧
    (i = .storeWord → m.top? = some m.hp ∧ Raises m.image (m.ip + 1)) ∧
    (i = .store .hp → ∃ h, m.hp = Int64.ofNat h ∧ m'.hp = Int64.ofNat (h + 1) ∧ h < m'.sp)

variable {m m' m'' : Machine}

theorem Steps.trans (h : Steps m m') (h' : Steps m' m'') : Steps m m'' := by
  obtain ⟨n, hn⟩ := h
  obtain ⟨n', hn'⟩ := h'
  refine ⟨n' + n, fun k => ?_⟩
  rw [← Nat.add_assoc, hn, hn']

theorem Orderly.next (h : Orderly m m') : Next m m' := by
  obtain ⟨i, hi, hstep, -⟩ := h
  exact ⟨i, hi, hstep⟩

theorem Collides.instruction (h : m.Collides) : m.image.get? m.ip = some (.push 1) := by
  obtain ⟨i, a, hip, -, -, -, hi, -⟩ := h
  rwa [hip]

/-- One instruction that fails. -/
theorem advance_of_execute {i : Instruction} {e : MachineError} (hi : m.image.get? m.ip = some i)
    (h : execute i { m with steps := m.steps + 1 } = .error e m') : advance 1 m = (some (.error e), m') := by
  rw [advance, hi]
  dsimp only
  rw [step, h]

end Machine

/-! ## Through a part of the code -/

/-- **A run through a part of the code.** The run has begun at a machine, and of every call that it makes something is
known. -/
structure Course extends View where
  origin : Machine
  calls : Machine → Prop

namespace Course

open Machine

/-- The same run through the code in front of an address. -/
def upTo (V : Course) (stop : Nat) : Course := { View.upTo V.whole stop with origin := V.origin, calls := V.calls }

/-- The same run through all of the code. -/
def inside (V : Course) : Course := V.upTo V.whole.size

variable (V : Course)

/-- The run has come to the machine. -/
def Begun (m : Machine) : Prop := Relation.ReflTransGen Next V.origin m

/-- A step of the run. -/
def Step (m m' : Machine) : Prop := Orderly m m' ∧ (m.Calling → V.calls m)

/-- In so many steps the run comes from one machine to another, with so many calls open. The calls apart, it stays in the
part of the code. -/
abbrev Passes (m : Machine) (k d : Nat) (m' : Machine) : Prop := Nested V.Step (· < V.stop) m k d m'

/-- All calls have returned, and the machine is in a configuration with the property. -/
def Back (M : Nat) (Q : Config → Prop) (d : Nat) (m : Machine) : Prop := d = 0 ∧ ∃ c, Shows V.whole M m c ∧ Q c

variable {V} {m m' : Machine} {k d stop : Nat}

theorem Step.next (h : V.Step m m') : Next m m' := h.1.next

theorem Passes.advance (h : V.Passes m k d m') (n : Nat) : m.advance (n + k) = m'.advance n :=
  Nested.advance (fun _ _ => Step.next) h n

theorem Passes.steps (h : V.Passes m k d m') : Steps m m' := ⟨k, fun n => h.advance n⟩

theorem Passes.begun (h : V.Passes m k d m') (hm : V.Begun m) : V.Begun m' := by
  induction h with
  | refl => exact hm
  | step _ _ hstep _ ih => exact ih.tail hstep.next

theorem Passes.widen (h : (V.upTo stop).Passes m k d m') (hle : stop ≤ V.stop) : V.Passes m k d m' :=
  h.mono (fun _ _ => id) fun _ hip => Nat.lt_of_lt_of_le hip hle

end Course

namespace Machine

/-- **How a run goes on** through a part of the code: it comes to a machine with the property, at which so many calls are
open, or to an instruction in this part, or in what is called there, at which it fails or collides. -/
inductive Comes (V : Course) (Q : Nat → Machine → Prop) (E : MachineError → List Int64 → Prop) (m : Machine) : Prop
  | reach {k d : Nat} {m' : Machine} : V.Passes m k d m' → Q d m' → Comes V Q E m
  | fault {e : MachineError} {k d : Nat} {m' m'' : Machine} : V.Passes m k d m' → (d = 0 → m'.ip < V.stop) →
      advance 1 m' = (some (.error e), m'') → E e m''.output.toList → Comes V Q E m
  | collide {k d : Nat} {m' : Machine} : V.Passes m k d m' → (d = 0 → m'.ip < V.stop) → m'.Collides → Comes V Q E m

namespace Comes

variable {V : Course} {m m' : Machine} {Q Q' : Nat → Machine → Prop} {E E' : MachineError → List Int64 → Prop}
variable {M k d stop : Nat}

/-- What a run comes to behind a part of it, it comes to. -/
theorem after (h : V.Passes m k d m') (h' : Comes V (fun d' => Q (d + d')) E m') : Comes V Q E m := by
  cases h' with
  | reach hpasses hq => exact .reach (h.trans (fun _ _ => id) hpasses) hq
  | fault hpasses hip hadvance he =>
    exact .fault (h.trans (fun _ _ => id) hpasses) (fun hd => hip (Nat.add_eq_zero_iff.1 hd).2) hadvance he
  | collide hpasses hip hc =>
    exact .collide (h.trans (fun _ _ => id) hpasses) (fun hd => hip (Nat.add_eq_zero_iff.1 hd).2) hc

/-- If all calls have returned there, the same is open. -/
theorem behind (h : V.Passes m k 0 m') (h' : Comes V Q E m') : Comes V Q E m :=
  after h (by simpa only [Nat.zero_add] using h')

/-- In what is called the run may be anywhere. -/
theorem deeper (h : V.Passes m k d m') (hd : d ≠ 0) (h' : Comes V.inside (fun d' => Q (d + d')) E m') : Comes V Q E m := by
  have hall {k' d' m''} (hpasses : V.inside.Passes m' k' d' m'') : V.Passes m (k + k') (d + d') m'' :=
    h.trans (fun hd' => absurd hd' hd) hpasses
  have hin {d'} {P : Prop} (hd' : d + d' = 0) : P := absurd (Nat.add_eq_zero_iff.1 hd').1 hd
  cases h' with
  | reach hpasses hq => exact .reach (hall hpasses) hq
  | fault hpasses _ hadvance he => exact .fault (hall hpasses) hin hadvance he
  | collide hpasses _ hc => exact .collide (hall hpasses) hin hc

/-- From what is reached the run may go on, and more faults may be allowed. -/
theorem onward (h : Comes V Q E m) (hE : ∀ e out, E e out → E' e out)
    (hQ : ∀ k d m', V.Passes m k d m' → Q d m' → Comes V Q' E' m) : Comes V Q' E' m := by
  cases h with
  | reach hpasses hq => exact hQ _ _ _ hpasses hq
  | fault hpasses hip hadvance he => exact .fault hpasses hip hadvance (hE _ _ he)
  | collide hpasses hip hc => exact .collide hpasses hip hc

/-- What it comes to from there, it comes to. -/
theorem bind (h : Comes V Q E m) (hE : ∀ e out, E e out → E' e out)
    (hQ : ∀ k d m', V.Passes m k d m' → Q d m' → Comes V (fun d' => Q' (d + d')) E' m') : Comes V Q' E' m :=
  h.onward hE fun k d m' hpasses hq => (hQ k d m' hpasses hq).after hpasses

/-- The part of the code may be longer. -/
theorem widen (h : Comes (V.upTo stop) Q E m) (hle : stop ≤ V.stop) : Comes V Q E m := by
  cases h with
  | reach hpasses hq => exact .reach (hpasses.widen hle) hq
  | fault hpasses hip hadvance he =>
    exact .fault (hpasses.widen hle) (fun hd => Nat.lt_of_lt_of_le (hip hd) hle) hadvance he
  | collide hpasses hip hc => exact .collide (hpasses.widen hle) (fun hd => Nat.lt_of_lt_of_le (hip hd) hle) hc

theorem mono (h : Comes V Q E m) (hQ : ∀ d m', Q d m' → Q' d m') : Comes V Q' E m := by
  cases h with
  | reach hpasses hq => exact .reach hpasses (hQ _ _ hq)
  | fault hpasses hip hadvance he => exact .fault hpasses hip hadvance he
  | collide hpasses hip hc => exact .collide hpasses hip hc

/-- It is known on which way the run came there. -/
theorem traced (h : Comes V Q E m) : Comes V (fun d m' => Q d m' ∧ ∃ k, V.Passes m k d m') E m := by
  cases h with
  | reach hpasses hq => exact .reach hpasses ⟨hq, _, hpasses⟩
  | fault hpasses hip hadvance he => exact .fault hpasses hip hadvance he
  | collide hpasses hip hc => exact .collide hpasses hip hc

/-- Behind a configuration with the property the run may go on. -/
theorem bind_back {P P' : Config → Prop} (h : Comes V (V.Back M P) E m) (hE : ∀ e out, E e out → E' e out)
    (hP : ∀ k m' c, V.Passes m k 0 m' → Shows V.whole M m' c → P c → Comes V (V.Back M P') E' m') :
    Comes V (V.Back M P') E' m := by
  refine h.bind hE ?_
  rintro k d m' hpasses ⟨rfl, c, hshows, hp⟩
  simpa only [Nat.zero_add] using hP k m' c hpasses hshows hp

end Comes

end Machine

/-! ## Instructions -/

section Will

open Machine

/-- **How every run goes on from a configuration.** -/
def Will (V : Course) (M : Nat) (Q : Config → Prop) (E : MachineError → List Int64 → Prop) (c : Config) : Prop :=
  ∀ m, V.Begun m → Shows V.whole M m c → Comes V (V.Back M Q) E m

variable {V : Course} {M : Nat} {Q Q' : Config → Prop} {E E' : MachineError → List Int64 → Prop}
variable {ip a t : Nat} {i : Instruction} {v w left right : Int64} {s H s' H' out out' : List Int64}
variable {R R' : Register → Int64} {c : Config} {l : String} {e : MachineError} {m : Machine}

theorem will_done (h : Q c) : Will V M Q E c := fun _ _ hm => .reach .refl ⟨rfl, c, hm, h⟩

theorem Will.bind (h : Will V M Q E c) (hE : ∀ e out, E e out → E' e out)
    (hQ : ∀ c', Q c' → Will V M Q' E' c') : Will V M Q' E' c := fun m hb hm =>
  (h m hb hm).bind_back hE fun _ m' c' hpasses hm' hq => hQ c' hq m' (hpasses.begun hb) hm'

/-- What is in use never exceeds memory. -/
theorem will_of_used (h : c.used ≤ M → Will V M Q E c) : Will V M Q E c := fun m hb hm => h hm.used_le m hb hm

/-- One instruction, as the machine executes it. -/
theorem exists_orderly (hi : V.whole.get? ip = some i)
    (h : Does V.whole M (Machine.execute i) ⟨ip, s, H, R, out⟩ (some t) ⟨ip, s', H', R', out'⟩)
    (horderly : ∀ m m', Shows V.whole M m ⟨ip, s, H, R, out⟩ → Shows V.whole M m' ⟨t, s', H', R', out'⟩ →
      (i = .storeWord → m.top? = some m.hp ∧ Raises m.image (m.ip + 1)) ∧
        (i = .store .hp → ∃ h, m.hp = Int64.ofNat h ∧ m'.hp = Int64.ofNat (h + 1) ∧ h < m'.sp))
    (hm : Shows V.whole M m ⟨ip, s, H, R, out⟩) : ∃ m', Orderly m m' ∧ Shows V.whole M m' ⟨t, s', H', R', out'⟩ := by
  obtain ⟨m', hrun, hm'⟩ := h _ (hm.counted (m.steps + 1))
  have hshows : Shows V.whole M { m' with ip := t } ⟨t, s', H', R', out'⟩ := hm'.jumped t
  have hstep : step i m = (none, { m' with ip := t }) := by rw [step, hrun]
  exact ⟨_, ⟨i, hm.instruction.trans hi, hstep, horderly m _ hm hshows⟩, hshows⟩

/-- One instruction. -/
theorem will_of_does_orderly (hi : V.get? ip = some i) (hne : i ≠ .jumpSub)
    (h : Does V.whole M (Machine.execute i) ⟨ip, s, H, R, out⟩ (some t) ⟨ip, s', H', R', out'⟩)
    (horderly : ∀ m m', Shows V.whole M m ⟨ip, s, H, R, out⟩ → Shows V.whole M m' ⟨t, s', H', R', out'⟩ →
      (i = .storeWord → m.top? = some m.hp ∧ Raises m.image (m.ip + 1)) ∧
        (i = .store .hp → ∃ h, m.hp = Int64.ofNat h ∧ m'.hp = Int64.ofNat (h + 1) ∧ h < m'.sp))
    (hw : Will V M Q E ⟨t, s', H', R', out'⟩) : Will V M Q E ⟨ip, s, H, R, out⟩ := by
  intro m hb hm
  obtain ⟨m', hstep, hm'⟩ := exists_orderly (V.whole_of_get? hi) h horderly hm
  have hplain : m.image.get? m.ip ≠ some .jumpSub := fun hjump =>
    hne (Option.some.inj ((hm.instruction.trans (V.whole_of_get? hi)).symm.trans hjump))
  have hip : m.ip < V.stop := hm.ip ▸ V.lt_stop hi
  have hpasses : V.Passes m 1 0 m' := .single hip ⟨hstep, fun hcalling => absurd hcalling.1 hplain⟩ (.plain hplain)
  exact (hw m' (hpasses.begun hb) hm').behind hpasses

/-- One instruction that leaves the heap as it is. -/
theorem will_of_does (hi : V.get? ip = some i) (hspares : i.sparesHeap = true) (hne : i ≠ .jumpSub)
    (h : Does V.whole M (Machine.execute i) ⟨ip, s, H, R, out⟩ (some t) ⟨ip, s', H', R', out'⟩)
    (hw : Will V M Q E ⟨t, s', H', R', out'⟩) : Will V M Q E ⟨ip, s, H, R, out⟩ := by
  refine will_of_does_orderly hi hne h (fun m m' _ _ => ?_) hw
  constructor <;> rintro rfl <;> cases hspares

/-- One instruction that fails. -/
theorem will_of_fails (hi : V.get? ip = some i) (h : Fails V.whole M (Machine.execute i) ⟨ip, s, H, R, out⟩ e)
    (he : E e out) : Will V M Q E ⟨ip, s, H, R, out⟩ := by
  intro m _ hm
  obtain ⟨m', hrun, hout⟩ := h _ (hm.counted (m.steps + 1))
  refine .fault .refl (fun _ => hm.ip ▸ V.lt_stop hi) (advance_of_execute (hm.instruction.trans (V.whole_of_get? hi)) hrun) ?_
  rw [hout]
  exact he

/-- A word is written behind the heap. -/
theorem will_storeWord (hi : V.get? ip = some .storeWord) (hraises : Raises V.toImage (ip + 1))
    (hhp : R .hp = Int64.ofNat H.length)
    (h : Will V M Q E ⟨ip + 1, s, H ++ [v], R, out⟩) :
    Will V M Q E ⟨ip, Int64.ofNat H.length :: v :: s, H, R, out⟩ := by
  refine will_of_does_orderly hi nofun does_execute_storeWord (fun m m' hm hm' => ⟨fun _ => ⟨?_, ?_⟩, nofun⟩) h
  · have hreg : m.hp = R .hp := hm.registers .hp
    rw [hm.top, hreg, hhp]
    rfl
  · rw [hm.image, hm.ip]
    exact hraises.whole

/-- The heap is enlarged by its last cell. -/
theorem will_store_hp (hi : V.get? ip = some (.store .hp)) (hhp : R .hp = Int64.ofNat H.length)
    (h : Will V M Q E ⟨ip + 1, s, H ++ [w], Function.update R .hp (Int64.ofNat (H.length + 1)), out⟩) :
    Will V M Q E ⟨ip, Int64.ofNat (H.length + 1) :: s, H ++ [w], R, out⟩ := by
  refine will_of_does_orderly hi nofun (does_execute_store .hp) (fun m m' hm hm' => ⟨nofun, fun _ => ?_⟩) h
  have hused := hm'.used_le
  have hsp := hm'.sp
  simp only [Config.used, List.length_append, List.length_singleton] at hused hsp
  exact ⟨H.length, (hm.registers .hp).trans hhp, hm'.registers .hp, by omega⟩

/-- **How runs go on is shown backwards.** -/
theorem backward_will : Backward V.toView M E (Will V M Q E) where
  used := will_of_used
  ahead hi hspares hne _ h hw := will_of_does hi hspares hne h hw
  fails hi h he := will_of_fails hi h he
  write hi hraises hhp h := will_storeWord hi hraises hhp h
  raise hi hhp h := will_store_hp hi hhp h

/-- A push where there is room. -/
theorem will_push_low (hi : V.get? ip = some i) (hv : i.pushed? V.toImage R = some v) (hlow : Low R H)
    (hroom : s.length + H.length < M) (h : Will V M Q E ⟨ip + 1, v :: s, H, R, out⟩) :
    Will V M Q E ⟨ip, s, H, R, out⟩ := backward_will.push_low hi hv hlow hroom h

/-- A push, which is refused just if there is no room. -/
theorem will_push_or (hi : V.get? ip = some i) (hv : i.pushed? V.toImage R = some v)
    (hhp : R .hp = Int64.ofNat H.length) (he : M ≤ s.length + H.length → E (.stackOverflow ip) out)
    (h : s.length + H.length < M → Will V M Q E ⟨ip + 1, v :: s, H, R, out⟩) :
    Will V M Q E ⟨ip, s, H, R, out⟩ := backward_will.push hi hv hhp he h

/-- A push, for which there may be no room. -/
theorem will_push (hi : V.get? ip = some i) (hv : i.pushed? V.toImage R = some v) (hhp : R .hp = Int64.ofNat H.length)
    (he : ∀ ip, E (.stackOverflow ip) out)
    (h : s.length + H.length < M → Will V M Q E ⟨ip + 1, v :: s, H, R, out⟩) :
    Will V M Q E ⟨ip, s, H, R, out⟩ := will_push_or hi hv hhp (fun _ => he ip) h

theorem will_pop (hi : V.get? ip = some .pop) (h : Will V M Q E ⟨ip + 1, s, H, R, out⟩) :
    Will V M Q E ⟨ip, v :: s, H, R, out⟩ := will_of_does hi rfl nofun does_execute_pop h

theorem will_arith {op : Arith} (hi : V.get? ip = some (.arith op)) (hv : op.result? left right = some v)
    (hlow : Low R H) (h : Will V M Q E ⟨ip + 1, v :: s, H, R, out⟩) :
    Will V M Q E ⟨ip, right :: left :: s, H, R, out⟩ := backward_will.arith hi hv hlow h

theorem will_divide_by_zero (hi : V.get? ip = some (.arith .div)) (he : E (.divisionByZero ip) out) :
    Will V M Q E ⟨ip, 0 :: left :: s, H, R, out⟩ := will_of_fails hi (fails_execute_arith rfl) he

theorem will_jump (hi : V.get? ip = some (.jump l)) (hl : V.addressOf? l = some t)
    (h : Will V M Q E ⟨t, s, H, R, out⟩) : Will V M Q E ⟨ip, s, H, R, out⟩ :=
  will_of_does hi rfl nofun (does_execute_jump (View.addressOf?_eq l ▸ hl)) h

theorem will_branch {on : Comparison} (hi : V.get? ip = some (.branch on l)) (hl : V.addressOf? l = some t)
    (h : Will V M Q E ⟨if on.holds left right then t else ip + 1, s, H, R, out⟩) :
    Will V M Q E ⟨ip, right :: left :: s, H, R, out⟩ :=
  will_of_does hi rfl nofun (does_execute_branch (View.addressOf?_eq l ▸ hl)) h

theorem will_label (hi : V.get? ip = some (.label l)) (h : Will V M Q E ⟨ip + 1, s, H, R, out⟩) :
    Will V M Q E ⟨ip, s, H, R, out⟩ := backward_will.label hi h

theorem will_store {r : Register} (hi : V.get? ip = some (.store r)) (hr : r ≠ .hp)
    (h : Will V M Q E ⟨ip + 1, s, H, Function.update R r v, out⟩) : Will V M Q E ⟨ip, v :: s, H, R, out⟩ :=
  backward_will.store hi hr h

theorem will_copyFp (hi : V.get? ip = some .copyFp) (ha : a + s.length = M)
    (h : Will V M Q E ⟨ip + 1, s, H, Function.update R .fp (Int64.ofNat a), out⟩) :
    Will V M Q E ⟨ip, s, H, R, out⟩ := will_of_does hi rfl nofun (does_execute_copyFp ha) h

theorem will_loadWord (hi : V.get? ip = some .loadWord) (hw : Cell M s H a w)
    (hlow : Low R H) (h : Will V M Q E ⟨ip + 1, w :: s, H, R, out⟩) :
    Will V M Q E ⟨ip, Int64.ofNat a :: s, H, R, out⟩ := will_of_does hi rfl nofun (does_execute_loadWord hw hlow) h

theorem will_loadWord_null (hi : V.get? ip = some .loadWord) (he : E (.invalidAddress (-1) ip) out) :
    Will V M Q E ⟨ip, -1 :: s, H, R, out⟩ :=
  will_of_fails hi (fails_execute_loadWord (Address.index?_neg_one M)) he

theorem will_print (hi : V.get? ip = some .print) (h : Will V M Q E ⟨ip + 1, s, H, R, out ++ [v]⟩) :
    Will V M Q E ⟨ip, v :: s, H, R, out⟩ := backward_will.print hi h

/-! ## Calls -/

/-- The configuration is about to return to the address; behind the return it has the property. -/
def Config.Exits (image : Image) (ret : Nat) (Q : Config → Prop) (c : Config) : Prop :=
  ∃ j s H R out, image.get? j = some (.load .ra) ∧ image.get? (j + 1) = some .jumpSub ∧
    c = ⟨j + 1, Int64.ofNat ret :: s, H, R, out⟩ ∧
    Q ⟨ret, s, H, Function.update R .ra (Int64.ofNat (j + 2)), out⟩

/-- The jump to what is on top of the stack. -/
theorem exists_jumpSub (hi : V.whole.get? ip = some .jumpSub) (ht : t < V.whole.size) (hsize : V.whole.size ≤ Address.bound)
    (hm : Shows V.whole M m ⟨ip, Int64.ofNat t :: s, H, R, out⟩) : ∃ m', Orderly m m' ∧
      Shows V.whole M m' ⟨t, s, H, Function.update R .ra (Int64.ofNat (ip + 1)), out⟩ :=
  exists_orderly hi (does_execute_jumpSub ht hsize) (fun _ _ _ _ => ⟨nofun, nofun⟩) hm

/-- The first step of a call. -/
theorem exists_call (hm : Shows V.whole M m ⟨ip, Int64.ofNat t :: s, H, R, out⟩) (hi : V.get? ip = some .jumpSub)
    (hcalling : m.Calling) (hcalls : V.calls m) (ht : t < V.whole.size) (hsize : V.whole.size ≤ Address.bound) :
    ∃ m', V.Passes m 1 1 m' ∧ Shows V.whole M m' ⟨t, s, H, Function.update R .ra (Int64.ofNat (ip + 1)), out⟩ := by
  obtain ⟨m', hstep, hm'⟩ := exists_jumpSub (V.whole_of_get? hi) ht hsize hm
  exact ⟨m', .single (hm.ip ▸ V.lt_stop hi) ⟨hstep, fun _ => hcalls⟩ (.call hcalling), hm'⟩

/-- **A call** is judged by what is called, anywhere in the code, up to the jump that leaves it. -/
theorem Machine.Comes.call (hb : V.Begun m) (hm : Shows V.whole M m ⟨ip, Int64.ofNat t :: s, H, R, out⟩)
    (hi : V.get? ip = some .jumpSub) (hcalling : m.Calling) (hcalls : V.calls m) (ht : t < V.whole.size)
    (hret : ip + 1 < V.whole.size) (hsize : V.whole.size ≤ Address.bound) (hE : ∀ e out, E e out → E' e out)
    (h : Will V.inside M (Config.Exits V.whole (ip + 1) Q) E ⟨t, s, H, Function.update R .ra (Int64.ofNat (ip + 1)), out⟩)
    (hQ : ∀ c, Q c → Will V M Q' E' c) : Comes V (V.Back M Q') E' m := by
  obtain ⟨m₁, hentered, hm₁⟩ := exists_call hm hi hcalling hcalls ht hsize
  have hinside : Comes V (fun d m' => d = 1 ∧ ∃ c, Shows V.whole M m' c ∧ Config.Exits V.whole (ip + 1) Q c) E m := by
    refine .deeper hentered Nat.one_ne_zero ((h m₁ (hentered.begun hb) hm₁).mono ?_)
    rintro d m₂ ⟨rfl, hexits⟩
    exact ⟨rfl, hexits⟩
  refine hinside.onward hE ?_
  rintro k d m₂ hpasses ⟨rfl, c, hm₂, j, s', H', R', out', hra, hjump, rfl, hq⟩
  obtain ⟨m₃, hstep, hm₃⟩ := exists_jumpSub hjump hret hsize hm₂
  have hreturning : m₂.Returning := ⟨j, hm₂.ip, hm₂.image ▸ hra, hm₂.image ▸ hjump⟩
  have hreturned : V.Passes m (k + 1) 0 m₃ :=
    .step hpasses nofun ⟨hstep, fun hcalling' => absurd hreturning hcalling'.2⟩ (.ret hreturning)
  exact (hQ _ hq m₃ (hreturned.begun hb) hm₃).behind hreturned

/-! ## Moments of a run -/

section Moments

variable {m₁ m₂ m' : Machine} {k n d ret : Nat} {P : Nat → Prop}

/-- What lies on the way of a run is a moment of it. -/
theorem Course.Passes.meets {Q : Machine → Prop} (h : V.Passes m n d m₁) (hn : n < k) (hi : m₁.image.get? m₁.ip = some i)
    (hq : Q m₁) : m.Meets k Q := ⟨n, hn, m₁, Nested.after (fun _ _ => Course.Step.next) h hi, hq⟩

/-- As long as a run is in the part of the code, it has not arrived at its end. -/
theorem Course.Passes.lt_of_arrives (h : V.Passes m n d m₁) (hip : d = 0 → m₁.ip < V.stop)
    (ha : m.Arrives V.stop k m') : n < k := by
  obtain ⟨hnested, hplace⟩ := ha
  rcases Nat.lt_trichotomy n k with hlt | rfl | hgt
  · exact hlt
  · obtain ⟨rfl, rfl⟩ := h.unique (fun _ _ => Course.Step.next) (fun _ _ => id) hnested
    exact absurd hplace (Nat.ne_of_lt (hip rfl))
  · obtain ⟨_, _, _, _, hfront, hin, -⟩ := h.front hgt
    obtain ⟨rfl, rfl⟩ := hfront.unique (fun _ _ => Course.Step.next) (fun _ _ => id) hnested
    exact absurd hplace (Nat.ne_of_lt (hin rfl))

/-- **A run that arrives at the end of the part of the code** has come to what it comes to, or to a collision. -/
theorem Machine.Comes.before_arrival {Q : Nat → Machine → Prop} (h : Comes V Q E m) (ha : m.Arrives V.stop k m') :
    (∃ j ≤ k, ∃ d m₁, V.Passes m j d m₁ ∧ Q d m₁) ∨ m.Meets k Collides := by
  cases h with
  | fault hpasses hip hadvance _ =>
    obtain ⟨_, _, _, _, hfront, -, hnext, -⟩ := ha.1.front (hpasses.lt_of_arrives hip ha)
    obtain ⟨-, rfl⟩ := hfront.unique (fun _ _ => id) (fun _ _ => Course.Step.next) hpasses
    exact absurd hadvance hnext.ne_error
  | collide hpasses hip hc => exact .inr (hpasses.meets (hpasses.lt_of_arrives hip ha) hc.instruction hc)
  | @reach n d m₁ hpasses hq =>
    refine .inl ⟨n, Nat.le_of_not_lt fun hgt => ?_, d, m₁, hpasses, hq⟩
    obtain ⟨_, _, _, _, hfront, hin, -⟩ := hpasses.front hgt
    obtain ⟨rfl, rfl⟩ := hfront.unique (fun _ _ => Course.Step.next) (fun _ _ => id) ha.1
    exact absurd ha.2 (Nat.ne_of_lt (hin rfl))

/-- If it comes to this end, it is there when it arrives. -/
theorem Machine.Comes.arrives (h : Comes V (V.Back M Q) E m) (hQ : ∀ c, Q c → c.ip = V.stop)
    (ha : m.Arrives V.stop k m') : (∃ c, Shows V.whole M m' c ∧ Q c) ∨ m.Meets k Collides := by
  refine (h.before_arrival ha).imp_left ?_
  rintro ⟨n, hle, _, m₁, hpasses, rfl, c, hshows, hq⟩
  rcases Nat.lt_or_eq_of_le hle with hlt | rfl
  · obtain ⟨_, _, _, _, hfront, hne, -⟩ := ha.1.front hlt
    obtain ⟨rfl, rfl⟩ := hfront.unique (fun _ _ => id) (fun _ _ => Course.Step.next) hpasses
    exact absurd (hshows.ip.trans (hQ c hq)) (hne rfl)
  · obtain ⟨-, rfl⟩ := hpasses.unique (fun _ _ => Course.Step.next) (fun _ _ => id) ha.1
    exact ⟨c, hshows, hq⟩

end Moments

end Will

end Fool
