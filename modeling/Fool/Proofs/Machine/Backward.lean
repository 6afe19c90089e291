import Fool.Proofs.Machine.View

/-!
# What is shown of a configuration by showing it of the next one

A statement about how runs go on from a configuration is shown backwards: it holds of a configuration if it holds of the one
behind the next instruction (`Backward`). The rules for instructions and for pieces of code are stated for all such
statements at once.

A word is written to memory only behind the heap, where `hp` is about to move on (`Machine.Raises`), and only then `hp`
moves; of the other instructions nothing is assumed (`Instruction.sparesHeap`). The instructions are those in view.
-/

namespace Fool

/-- The instruction neither writes a word to memory nor moves the end of the heap. -/
def Instruction.sparesHeap : Instruction → Bool
  | .storeWord | .store .hp => false
  | _ => true

/-- From the address on the code adds 1 to a copy of `hp`, which becomes `hp`. -/
def Machine.Raises (image : Image) (ip : Nat) : Prop :=
  ∃ n, image.get? (ip + n) = some (.store .hp) ∧ ∀ j < n, ∃ i ∈ [.load .hp, .push 1, .arith .add], image.get? (ip + j) = some i

/-- What moves `hp` in a part of the code does so in the whole. -/
theorem Machine.Raises.whole {view : View} {ip : Nat} (h : Machine.Raises view.toImage ip) : Machine.Raises view.whole ip := by
  obtain ⟨n, hstore, hbefore⟩ := h
  refine ⟨n, view.whole_of_get? hstore, fun j hj => ?_⟩
  obtain ⟨i, hmem, hi⟩ := hbefore j hj
  exact ⟨i, hmem, view.whole_of_get? hi⟩

variable {image : View} {M : Nat} {E : MachineError → List Int64 → Prop} {W : Config → Prop}

/-- **What holds of a configuration if it holds of the next one,** or if the next instruction fails in a way that `E`
allows. -/
structure Backward (image : View) (M : Nat) (E : MachineError → List Int64 → Prop) (W : Config → Prop) : Prop where
  /-- What is in use never exceeds memory. -/
  used {c : Config} : (c.used ≤ M → W c) → W c
  ahead {ip t : Nat} {i : Instruction} {s s' H H' out out' : List Int64} {R R' : Register → Int64} :
    image.get? ip = some i → i.sparesHeap = true → i ≠ .jumpSub → ip < t →
    Does image.whole M (Machine.execute i) ⟨ip, s, H, R, out⟩ (some t) ⟨ip, s', H', R', out'⟩ →
    W ⟨t, s', H', R', out'⟩ → W ⟨ip, s, H, R, out⟩
  fails {ip : Nat} {i : Instruction} {e : MachineError} {s H out : List Int64} {R : Register → Int64} :
    image.get? ip = some i → Fails image.whole M (Machine.execute i) ⟨ip, s, H, R, out⟩ e → E e out → W ⟨ip, s, H, R, out⟩
  /-- A word is written behind the heap. -/
  write {ip : Nat} {v : Int64} {s H out : List Int64} {R : Register → Int64} : image.get? ip = some .storeWord →
    Machine.Raises image.toImage (ip + 1) → R .hp = Int64.ofNat H.length → W ⟨ip + 1, s, H ++ [v], R, out⟩ →
    W ⟨ip, Int64.ofNat H.length :: v :: s, H, R, out⟩
  /-- The heap is enlarged by its last cell. -/
  raise {ip : Nat} {w : Int64} {s H out : List Int64} {R : Register → Int64} : image.get? ip = some (.store .hp) →
    R .hp = Int64.ofNat H.length →
    W ⟨ip + 1, s, H ++ [w], Function.update R .hp (Int64.ofNat (H.length + 1)), out⟩ →
    W ⟨ip, Int64.ofNat (H.length + 1) :: s, H ++ [w], R, out⟩

namespace Backward

variable {ip t : Nat} {i : Instruction} {v w left right : Int64} {s H H' out : List Int64} {R : Register → Int64}
variable {l : String} {r : Register} {op : Arith} {on : Comparison}

theorem spares_of_pushed (hv : i.pushed? image.toImage R = some v) : i.sparesHeap = true ∧ i ≠ .jumpSub := by
  cases i <;> simp_all [Instruction.pushed?, Instruction.sparesHeap]

/-- An instruction that pushes. -/
theorem pushed (hW : Backward image M E W) (hi : image.get? ip = some i) (hv : i.pushed? image.toImage R = some v)
    (hpush : Does image.whole M (Machine.execute i) ⟨ip, s, H', R, out⟩ (some (ip + 1)) ⟨ip, v :: s, H, R, out⟩)
    (h : W ⟨ip + 1, v :: s, H, R, out⟩) : W ⟨ip, s, H', R, out⟩ := by
  obtain ⟨hspares, hne⟩ := spares_of_pushed hv
  exact hW.ahead hi hspares hne (Nat.lt_succ_self ip) hpush h

/-- A push where there is room. -/
theorem push_low (hW : Backward image M E W) (hi : image.get? ip = some i) (hv : i.pushed? image.toImage R = some v)
    (hlow : Low R H) (hroom : s.length + H.length < M) (h : W ⟨ip + 1, v :: s, H, R, out⟩) : W ⟨ip, s, H, R, out⟩ :=
  hW.pushed hi hv (does_execute_push (View.pushed?_eq ▸ hv) hlow hroom) h

/-- A push, which is refused just if there is no room. -/
theorem push (hW : Backward image M E W) (hi : image.get? ip = some i) (hv : i.pushed? image.toImage R = some v)
    (hhp : R .hp = Int64.ofNat H.length) (he : M ≤ s.length + H.length → E (.stackOverflow ip) out)
    (h : s.length + H.length < M → W ⟨ip + 1, v :: s, H, R, out⟩) : W ⟨ip, s, H, R, out⟩ := by
  by_cases hroom : s.length + H.length < M
  · exact hW.push_low hi hv (low_of_eq hhp) hroom (h hroom)
  · have hfull := Nat.le_of_not_lt hroom
    exact hW.fails hi (fails_execute_push (View.pushed?_eq ▸ hv) hhp hfull) (he hfull)

/-- A push that overwrites the cell behind the heap, where a word has been written. -/
theorem push_over (hW : Backward image M E W) (hi : image.get? ip = some i) (hv : i.pushed? image.toImage R = some v)
    (hhp : R .hp = Int64.ofNat H.length) (hroom : s.length + H.length < M) (h : W ⟨ip + 1, v :: s, H, R, out⟩) :
    W ⟨ip, s, H ++ [w], R, out⟩ :=
  hW.pushed hi hv (does_forget (does_execute_push (View.pushed?_eq ▸ hv) (low_of_eq hhp) hroom)) h

theorem arith (hW : Backward image M E W) (hi : image.get? ip = some (.arith op)) (hv : op.result? left right = some v)
    (hlow : Low R H) (h : W ⟨ip + 1, v :: s, H, R, out⟩) : W ⟨ip, right :: left :: s, H, R, out⟩ :=
  hW.ahead hi rfl nofun (Nat.lt_succ_self ip) (does_execute_arith hv hlow) h

theorem jump (hW : Backward image M E W) (hi : image.get? ip = some (.jump l)) (hl : image.addressOf? l = some t)
    (hlt : ip < t) (h : W ⟨t, s, H, R, out⟩) : W ⟨ip, s, H, R, out⟩ := hW.ahead hi rfl nofun hlt (does_execute_jump (View.addressOf?_eq l ▸ hl)) h

theorem branch (hW : Backward image M E W) (hi : image.get? ip = some (.branch on l)) (hl : image.addressOf? l = some t)
    (hlt : ip < t) (h : W ⟨if on.holds left right then t else ip + 1, s, H, R, out⟩) :
    W ⟨ip, right :: left :: s, H, R, out⟩ := by
  refine hW.ahead hi rfl nofun ?_ (does_execute_branch (View.addressOf?_eq l ▸ hl)) h
  split
  · exact hlt
  · exact Nat.lt_succ_self ip

theorem label (hW : Backward image M E W) (hi : image.get? ip = some (.label l)) (h : W ⟨ip + 1, s, H, R, out⟩) :
    W ⟨ip, s, H, R, out⟩ := hW.ahead hi rfl nofun (Nat.lt_succ_self ip) does_execute_label h

theorem store (hW : Backward image M E W) (hi : image.get? ip = some (.store r)) (hr : r ≠ .hp)
    (h : W ⟨ip + 1, s, H, Function.update R r v, out⟩) : W ⟨ip, v :: s, H, R, out⟩ := by
  have hspares : (Instruction.store r).sparesHeap = true := by cases r <;> first | rfl | contradiction
  exact hW.ahead hi hspares nofun (Nat.lt_succ_self ip) (does_execute_store r) h

theorem print (hW : Backward image M E W) (hi : image.get? ip = some .print) (h : W ⟨ip + 1, s, H, R, out ++ [v]⟩) :
    W ⟨ip, v :: s, H, R, out⟩ := hW.ahead hi rfl nofun (Nat.lt_succ_self ip) does_execute_print h

end Backward

end Fool
