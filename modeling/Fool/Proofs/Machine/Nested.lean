import Mathlib.Logic.Relation
import Mathlib.Tactic.SplitIfs
import Fool.Machine.Run

/-!
# Calls that are open

The machine does not say how many calls are open, but its run does: code calls by a jump to an address that it has
worked out (`Machine.Calling`), and returns by a jump to what `ra` has given (`Machine.Returning`). `Nested` counts along
a part of a run: one more call is open behind the former, one less behind the latter, and no call is left that was open
before. How many there are depends on the number of steps alone (`Nested.unique`).

`Arrives` and `ReturnsTo` single out moments of a run by it: the first time, with all calls returned, at an address, and
the return of a call. Whether a call of a given run returns is computed by `returned?`.
-/

namespace Fool

namespace Machine

/-! ## Moments of a run -/

/-- One instruction after which the run goes on. -/
def Next (m m' : Machine) : Prop := ∃ i, m.image.get? m.ip = some i ∧ step i m = (none, m')

/-- After so many instructions the run has come to the machine, and goes on. -/
def After (m : Machine) (k : Nat) (m' : Machine) : Prop := advance k m = (none, m')

/-- In its first steps the run is at a machine with the property. -/
def Meets (m : Machine) (k : Nat) (Q : Machine → Prop) : Prop := ∃ j < k, ∃ m', m.After j m' ∧ Q m'

variable {m m' m'' m₁ m₂ : Machine} {j k n d d' : Nat}

theorem Next.unique (h : Next m m₁) (h' : Next m m₂) : m₁ = m₂ := by
  obtain ⟨i, hi, hstep⟩ := h
  obtain ⟨i', hi', hstep'⟩ := h'
  obtain rfl := Option.some.inj (hi.symm.trans hi')
  exact (Prod.mk.inj (hstep.symm.trans hstep')).2

theorem Next.advance (h : Next m m') (n : Nat) : m.advance (n + 1) = m'.advance n := by
  obtain ⟨i, hi, hstep⟩ := h
  rw [Machine.advance, hi]
  dsimp only
  rw [hstep]

/-- Where the run goes on, the instruction does not fail. -/
theorem Next.ne_error {e : MachineError} (h : Next m m') : m.advance 1 ≠ (some (.error e), m₁) := by
  intro hadvance
  rw [h.advance 0] at hadvance
  unfold Machine.advance at hadvance
  split at hadvance <;> cases hadvance

theorem After.unique (h : m.After k m') (h' : m.After k m'') : m' = m'' := (Prod.mk.inj (h.symm.trans h')).2

theorem after_zero : m.After 0 m' ↔ m' = m ∧ ∃ i, m.image.get? m.ip = some i := by
  unfold After advance
  cases m.image.get? m.ip with
  | none => simp
  | some i => simp [eq_comm]

theorem after_succ : m.After (k + 1) m'' ↔
    ∃ i m', m.image.get? m.ip = some i ∧ step i m = (none, m') ∧ m'.After k m'' := by
  unfold After
  rw [advance]
  cases m.image.get? m.ip with
  | none => simp
  | some i => rcases hstep : step i m with ⟨_ | answer, m'⟩ <;> simp [hstep]

/-- A run goes through its stages. -/
theorem After.between (h : m.After k m'') (hj : j ≤ k) : ∃ m', m.After j m' ∧ m'.After (k - j) m'' := by
  induction j generalizing m k with
  | zero =>
    refine ⟨m, after_zero.2 ⟨rfl, ?_⟩, h⟩
    cases k with
    | zero => exact (after_zero.1 h).2
    | succ k =>
      obtain ⟨i, m', hi, -⟩ := after_succ.1 h
      exact ⟨i, hi⟩
  | succ j ih =>
    obtain ⟨k, rfl⟩ : ∃ k', k = k' + 1 := ⟨k - 1, by omega⟩
    obtain ⟨i, m₁, hi, hstep, h⟩ := after_succ.1 h
    obtain ⟨m', hfirst, hsecond⟩ := ih h (by omega)
    exact ⟨m', after_succ.2 ⟨i, m₁, hi, hstep, hfirst⟩, by rwa [Nat.succ_sub_succ]⟩

theorem After.add (h : m.After j m') (h' : m'.After n m'') : m.After (j + n) m'' := by
  induction j generalizing m with
  | zero =>
    obtain ⟨rfl, -⟩ := after_zero.1 h
    rwa [Nat.zero_add]
  | succ j ih =>
    obtain ⟨i, m₁, hi, hstep, h⟩ := after_succ.1 h
    rw [Nat.add_right_comm]
    exact after_succ.2 ⟨i, m₁, hi, hstep, ih h⟩

theorem Next.after (h : Next m m') (h' : m'.After k m'') : m.After (k + 1) m'' := by
  obtain ⟨i, hi, hstep⟩ := h
  exact after_succ.2 ⟨i, m', hi, hstep, h'⟩

variable {Q Q' : Machine → Prop}

/-- What a later part of a run meets, the run meets. -/
theorem After.meets (h : m.After j m') (h' : m'.Meets k Q) : m.Meets (j + k) Q := by
  obtain ⟨n, hn, m₁, hthere, hq⟩ := h'
  exact ⟨j + n, Nat.add_lt_add_left hn j, m₁, h.add hthere, hq⟩

theorem Meets.mono (h : m.Meets j Q) (hle : j ≤ k) (hQ : ∀ m₁, Q m₁ → Q' m₁) : m.Meets k Q' := by
  obtain ⟨n, hn, m₁, hthere, hq⟩ := h
  exact ⟨n, Nat.lt_of_lt_of_le hn hle, m₁, hthere, hQ m₁ hq⟩

/-! ## Calls -/

/-- The machine is about to return: the jump goes to what has just been taken from `ra`. -/
def Returning (m : Machine) : Prop :=
  ∃ i, m.ip = i + 1 ∧ m.image.get? i = some (.load .ra) ∧ m.image.get? (i + 1) = some .jumpSub

/-- The machine is about to call: the jump goes to any other address. -/
def Calling (m : Machine) : Prop := m.image.get? m.ip = some .jumpSub ∧ ¬m.Returning

/-- So many calls are open before the next instruction, and so many behind it. -/
inductive Shift (m : Machine) : Nat → Nat → Prop
  | plain {d : Nat} : m.image.get? m.ip ≠ some .jumpSub → Shift m d d
  | call {d : Nat} : m.Calling → Shift m d (d + 1)
  | ret {d : Nat} : m.Returning → Shift m (d + 1) d

/-- **A part of a run,** of so many steps, behind which so many of its calls are open. Each step is one of `r`, and where
none of its calls is open it is at an address with `P`. -/
inductive Nested (r : Machine → Machine → Prop) (P : Nat → Prop) (m : Machine) : Nat → Nat → Machine → Prop
  | refl : Nested r P m 0 0 m
  | step {k d d' : Nat} {m₁ m₂ : Machine} : Nested r P m k d m₁ → (d = 0 → P m₁.ip) → r m₁ m₂ → Shift m₁ d d' →
      Nested r P m (k + 1) d' m₂

/-- So many steps later the run is at the address, for the first time with all calls returned. -/
def Arrives (m : Machine) (place k : Nat) (m' : Machine) : Prop := Nested Next (· ≠ place) m k 0 m' ∧ m'.ip = place

variable {r r' : Machine → Machine → Prop} {P P' : Nat → Prop}

theorem Returning.jumps (h : m.Returning) : m.image.get? m.ip = some .jumpSub := by
  obtain ⟨i, hip, -, hi⟩ := h
  rwa [hip]

/-- The address to which a call jumps has just been loaded from memory. -/
theorem calling_of_loadWord {i : Nat} (hip : m.ip = i + 1) (hload : m.image.get? i = some .loadWord)
    (hjump : m.image.get? (i + 1) = some .jumpSub) : m.Calling := by
  refine ⟨hip ▸ hjump, ?_⟩
  rintro ⟨i', hip', hra, -⟩
  obtain rfl : i = i' := by omega
  cases hload.symm.trans hra

theorem Shift.unique {d₁ d₂ : Nat} (h : Shift m d d₁) (h' : Shift m d d₂) : d₁ = d₂ := by
  cases h with
  | plain hi =>
    cases h' with
    | plain => rfl
    | call hc => exact absurd hc.1 hi
    | ret hr => exact absurd hr.jumps hi
  | call hc =>
    cases h' with
    | plain hi => exact absurd hc.1 hi
    | call => rfl
    | ret hr => exact absurd hr hc.2
  | ret hr =>
    cases h' with
    | plain hi => exact absurd hr.jumps hi
    | call hc => exact absurd hr hc.2
    | ret => rfl

theorem Shift.add (h : Shift m d d') (n : Nat) : Shift m (n + d) (n + d') := by
  cases h with
  | plain hi => exact .plain hi
  | call hc => exact .call hc
  | ret hr => exact .ret hr

namespace Nested

theorem single (hP : P m.ip) (hr : r m m') (hshift : Shift m 0 d) : Nested r P m 1 d m' := .step .refl (fun _ => hP) hr hshift

/-- One part behind another. The calls that the first one leaves open are so in the second. -/
theorem trans (h : Nested r P m j d m₁) (hP : d = 0 → ∀ ip, P' ip → P ip) (h' : Nested r P' m₁ k d' m₂) :
    Nested r P m (j + k) (d + d') m₂ := by
  induction h' with
  | refl => exact h
  | step _ hip hr hshift ih =>
    refine .step ih (fun hd => ?_) hr (hshift.add _)
    obtain ⟨hd, hd'⟩ := Nat.add_eq_zero_iff.1 hd
    exact hP hd _ (hip hd')

theorem mono (h : Nested r P m k d m') (hr : ∀ m₁ m₂, r m₁ m₂ → r' m₁ m₂) (hP : ∀ ip, P ip → P' ip) :
    Nested r' P' m k d m' := by
  induction h with
  | refl => exact .refl
  | step _ hip hstep hshift ih => exact .step ih (fun hd => hP _ (hip hd)) (hr _ _ hstep) hshift

/-- **The number of steps says where the run is,** and how many calls are open. -/
theorem unique (hr : ∀ m₁ m₂, r m₁ m₂ → Next m₁ m₂) (hr' : ∀ m₁ m₂, r' m₁ m₂ → Next m₁ m₂) (h : Nested r P m k d m₁)
    (h' : Nested r' P' m k d' m₂) : d = d' ∧ m₁ = m₂ := by
  induction h generalizing d' m₂ with
  | refl =>
    cases h'
    exact ⟨rfl, rfl⟩
  | step _ _ hstep hshift ih =>
    cases h' with
    | step h' _ hstep' hshift' =>
      obtain ⟨rfl, rfl⟩ := ih h'
      exact ⟨hshift.unique hshift', (hr _ _ hstep).unique (hr' _ _ hstep')⟩

/-- Each step of a part of a run. -/
theorem front (h : Nested r P m k d m') (hj : j < k) :
    ∃ d₁ d₂ m₁ m₂, Nested r P m j d₁ m₁ ∧ (d₁ = 0 → P m₁.ip) ∧ r m₁ m₂ ∧ Shift m₁ d₁ d₂ := by
  induction h with
  | refl => exact absurd hj (Nat.not_lt_zero j)
  | step hfront hip hstep hshift ih =>
    rcases Nat.lt_succ_iff_lt_or_eq.1 hj with hlt | rfl
    · exact ih hlt
    · exact ⟨_, _, _, _, hfront, hip, hstep, hshift⟩

/-- Behind a part of a run the run goes on from there. -/
theorem advance (hr : ∀ m₁ m₂, r m₁ m₂ → Next m₁ m₂) (h : Nested r P m k d m') (n : Nat) :
    m.advance (n + k) = m'.advance n := by
  induction h generalizing n with
  | refl => rfl
  | step _ _ hstep _ ih =>
    rw [← (hr _ _ hstep).advance n, ← ih (n + 1), Nat.add_right_comm, Nat.add_assoc]

theorem after (hr : ∀ m₁ m₂, r m₁ m₂ → Next m₁ m₂) (h : Nested r P m k d m') {i : Instruction}
    (hi : m'.image.get? m'.ip = some i) : m.After k m' := by
  unfold After
  rw [← Nat.zero_add k, h.advance hr]
  exact after_zero.2 ⟨rfl, i, hi⟩

/-- So does a run that is longer. -/
theorem rest (hr : ∀ m₁ m₂, r m₁ m₂ → Next m₁ m₂) (h : Nested r P m k d m') (h' : m.After (n + k) m'') : m'.After n m'' := by
  unfold After at h' ⊢
  rw [← h.advance hr, h']

end Nested

/-! ## Runs that are computed -/

instance decidableReturning : DecidablePred Returning := fun m =>
  decidable_of_iff (m.ip ≠ 0 ∧ m.image.get? (m.ip - 1) = some (.load .ra) ∧ m.image.get? m.ip = some .jumpSub) (by
    constructor
    · rintro ⟨hip, hra, hjump⟩
      exact ⟨m.ip - 1, by omega, hra, by rwa [Nat.sub_add_cancel (Nat.pos_of_ne_zero hip)]⟩
    · rintro ⟨i, hip, hra, hjump⟩
      simp [hip, hra, hjump])

instance decidableCalling : DecidablePred Calling := fun _ => inferInstanceAs (Decidable (_ ∧ _))

end Machine

end Fool
