import Mathlib.Algebra.Group.Nat.Defs
import Mathlib.Data.List.Basic
import Fool.Machine.Run

/-!
# Configurations of the machine

A `Config` is what code knows of the machine: stack and heap as lists, the registers and the numbers printed. A machine
`Shows` a configuration if its memory is the heap, then free cells, then the stack. Cells are numbered by natural
numbers; words that are addresses are compared and added to as numbers (`Address.ofNat_le_iff`,
`Address.ofNat_add_ofInt`). `Cell` says what a cell holds; it stays true when the stack and the heap grow.
-/

namespace Fool

/-! ## Numbers as addresses -/

namespace Address

/-- Addresses are natural numbers below this bound. -/
def bound : Nat := 2 ^ 63

variable {a b : Nat}

theorem toInt_ofNat (h : a < bound) : (Int64.ofNat a).toInt = a := Int64.toInt_ofNat_of_lt h

theorem ofNat_le_iff (ha : a < bound) (hb : b < bound) : Int64.ofNat a ≤ Int64.ofNat b ↔ a ≤ b := by
  rw [Int64.le_iff_toInt_le, toInt_ofNat ha, toInt_ofNat hb]
  omega

theorem ofNat_injective (ha : a < bound) (hb : b < bound) (h : Int64.ofNat a = Int64.ofNat b) : a = b := by
  have := congrArg Int64.toInt h
  rw [toInt_ofNat ha, toInt_ofNat hb] at this
  omega

theorem ofNat_ne_neg_one (ha : a < bound) : Int64.ofNat a ≠ -1 := by
  intro h
  have := congrArg Int64.toInt h
  rw [toInt_ofNat ha] at this
  have hneg : (-1 : Int64).toInt = -1 := by decide
  omega

/-- A place that lies at an offset from an address. -/
theorem ofNat_add_ofInt {k : Int} (h : (b : Int) = a + k) : Int64.ofNat a + Int64.ofInt k = Int64.ofNat b := by
  rw [← Int64.ofInt_eq_ofNat, ← Int64.ofInt_eq_ofNat, ← Int64.ofInt_add, h]

theorem index?_ofNat {limit : Nat} (ha : a < limit) (hlimit : limit ≤ bound) :
    Machine.index? (Int64.ofNat a) limit = some a := by
  have hbound : a < bound := Nat.lt_of_lt_of_le ha hlimit
  have hclamp : (Int64.ofNat a).toNatClampNeg = a := Int64.toNatClampNeg_ofNat_of_lt hbound
  have hpos : (0 : Int64) ≤ Int64.ofNat a := by
    rw [Int64.le_iff_toInt_le, toInt_ofNat hbound]
    exact Int.natCast_nonneg a
  rw [Machine.index?, hclamp, if_pos ⟨hpos, ha⟩]

theorem index?_neg_one (limit : Nat) : Machine.index? (-1) limit = none := by
  have : ¬(0 : Int64) ≤ -1 := by decide
  rw [Machine.index?, if_neg fun h => this h.1]

end Address

/-! ## Configurations -/

/-- What code knows of the machine. The topmost value of the stack comes first, the lowest cell of the heap too. -/
structure Config where
  ip : Nat
  stack : List Int64
  heap : List Int64
  regs : Register → Int64
  output : List Int64

namespace Config

/-- How many cells of memory belong to the heap or to the stack. -/
def used (c : Config) : Nat := c.stack.length + c.heap.length

end Config

/-! ## Cells -/

section Cell

variable {M a : Nat} {v w : Int64} {s s' H H' : List Int64}

/-- In a memory of `M` cells with the stack `s` and the heap `H` the cell `a` holds the word `w`. -/
def Cell (M : Nat) (s H : List Int64) (a : Nat) (w : Int64) : Prop :=
  H[a]? = some w ∨ ∃ i, s[i]? = some w ∧ a + s.length = M + i

theorem getElem?_of_isPrefix {α : Type} {xs ys : List α} {i : Nat} {x : α} (h : xs[i]? = some x) (hp : xs <+: ys) :
    ys[i]? = some x := by
  obtain ⟨more, rfl⟩ := hp
  rw [List.getElem?_append_left (List.getElem?_eq_some_iff.1 h).1, h]

/-- What a cell holds it still holds when stack and heap have grown. -/
theorem Cell.grow (h : Cell M s H a w) (hs : s <:+ s') (hH : H <+: H') : Cell M s' H' a w := by
  rcases h with hheap | ⟨i, hi, ha⟩
  · exact Or.inl (getElem?_of_isPrefix hheap hH)
  · obtain ⟨more, rfl⟩ := hs
    refine Or.inr ⟨more.length + i, ?_, ?_⟩
    · rw [List.getElem?_append_right (Nat.le_add_right _ _), Nat.add_sub_cancel_left, hi]
    · rw [List.length_append]
      omega

/-- The topmost value lies right behind the free cells. -/
theorem cell_top (ha : a + s.length + 1 = M) : Cell M (v :: s) H a v := by
  refine Or.inr ⟨0, rfl, ?_⟩
  rw [List.length_cons]
  omega

end Cell

/-! ## What a machine shows -/

namespace Machine

/-- The machine is in the configuration; memory has `M` cells, and there is no limit of steps. -/
structure Shows (image : Image) (M : Nat) (m : Machine) (c : Config) : Prop where
  bound : M < Address.bound
  image : m.image = image
  options : m.options = ⟨M, none⟩
  size : m.memory.size = M
  memory : ∃ free, m.memory.toList = c.heap ++ free ++ c.stack
  sp : m.sp + c.stack.length = M
  ip : m.ip = c.ip
  registers : ∀ r, m.get r = c.regs r
  output : m.output.toList = c.output

variable {image : Image} {M a : Nat} {m : Machine} {c : Config} {w : Int64}

/-- The next instruction is the one that the configuration stands at. -/
theorem Shows.instruction (h : Shows image M m c) : m.image.get? m.ip = image.get? c.ip := by
  rw [h.image, h.ip]

/-- The steps are not part of the configuration. -/
theorem Shows.counted (h : Shows image M m c) (n : Nat) : Shows image M { m with steps := n } c :=
  ⟨h.bound, h.image, h.options, h.size, h.memory, h.sp, h.ip, h.registers, h.output⟩

theorem Shows.jumped (h : Shows image M m c) (t : Nat) : Shows image M { m with ip := t } { c with ip := t } :=
  ⟨h.bound, h.image, h.options, h.size, h.memory, h.sp, rfl, h.registers, h.output⟩

theorem Shows.length_free (h : Shows image M m c) {free : List Int64}
    (hfree : m.memory.toList = c.heap ++ free ++ c.stack) : m.sp = c.heap.length + free.length := by
  have hlength := congrArg List.length hfree
  have hsize := h.size
  have hsp := h.sp
  rw [List.length_append, List.length_append, Array.length_toList] at hlength
  omega

theorem Shows.used_le (h : Shows image M m c) : c.used ≤ M := by
  obtain ⟨free, hfree⟩ := h.memory
  have hfree := h.length_free hfree
  have hsp := h.sp
  unfold Config.used
  omega

theorem Shows.cell_stack (h : Shows image M m c) (i : Nat) : m.cell? (m.sp + i) = c.stack[i]? := by
  obtain ⟨free, hfree⟩ := h.memory
  have hsp := h.length_free hfree
  have hlength : (c.heap ++ free).length = m.sp := by rw [List.length_append, hsp]
  rw [cell?, ← Array.getElem?_toList, hfree, List.getElem?_append_right (by omega), hlength, Nat.add_sub_cancel_left]

theorem Shows.cell_heap (h : Shows image M m c) (ha : a < c.heap.length) : m.cell? a = c.heap[a]? := by
  obtain ⟨free, hfree⟩ := h.memory
  rw [cell?, ← Array.getElem?_toList, hfree, List.append_assoc, List.getElem?_append_left ha]

theorem Shows.top (h : Shows image M m c) : m.top? = c.stack.head? := by
  have := h.cell_stack 0
  rw [top?, ← Nat.add_zero m.sp, this]
  cases c.stack <;> rfl

/-- **What a cell of the configuration holds, it holds in memory.** -/
theorem Shows.cell (h : Shows image M m c) (hw : Cell M c.stack c.heap a w) : a < M ∧ m.cell? a = some w := by
  have hcell : m.cell? a = some w := by
    rcases hw with hheap | ⟨i, hi, ha⟩
    · rw [h.cell_heap (List.getElem?_eq_some_iff.1 hheap).1, hheap]
    · have hsp := h.sp
      rw [show a = m.sp + i by omega, h.cell_stack, hi]
  have hlt := (Array.getElem?_eq_some_iff.1 hcell).1
  exact ⟨h.size ▸ hlt, hcell⟩

end Machine

end Fool
