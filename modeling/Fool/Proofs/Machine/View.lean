import Fool.Proofs.Machine.Does

/-!
# The part of the code that a run goes through

A `View` shows of the code of an image only the instructions in front of an address. What is shown of a run with the
instructions in view is shown of the run up to this address.
-/

namespace Fool

namespace Image

/-- The code in front of the address. The labels are those of the whole. -/
def upTo (image : Image) (stop : Nat) : Image := ⟨image.code.extract 0 stop, image.labels⟩

variable {image : Image} {stop ip : Nat} {i : Instruction}

theorem get?_upTo : (image.upTo stop).get? ip = if ip < stop then image.get? ip else none := by
  simp only [get?, upTo, Array.getElem?_extract, Nat.sub_zero, Nat.zero_add, Nat.lt_min]
  by_cases hstop : ip < stop
  · by_cases hsize : ip < image.code.size
    · rw [if_pos ⟨hstop, hsize⟩, if_pos hstop]
    · rw [if_neg fun h => hsize h.2, if_pos hstop, Array.getElem?_eq_none (Nat.le_of_not_lt hsize)]
  · rw [if_neg fun h => hstop h.1, if_neg hstop]

theorem get?_upTo_of_lt (h : ip < stop) : (image.upTo stop).get? ip = image.get? ip := by rw [get?_upTo, if_pos h]

end Image

/-- **A part of the code:** the image shows nothing from the address on, and in front of it only what the whole has. -/
structure View extends Image where
  whole : Image
  stop : Nat
  get?_eq : ∀ {ip i}, toImage.get? ip = some i → ip < stop ∧ whole.get? ip = some i
  labels_eq : labels = whole.labels

namespace View

/-- The part in front of an address. -/
def upTo (image : Image) (stop : Nat) : View where
  toImage := image.upTo stop
  whole := image
  stop := stop
  get?_eq h := by
    rw [Image.get?_upTo] at h
    split at h
    · exact ⟨‹_›, h⟩
    · cases h
  labels_eq := rfl

/-- All of the code. -/
def all (image : Image) : View where
  toImage := image
  whole := image
  stop := image.size
  get?_eq h := ⟨(Array.getElem?_eq_some_iff.1 h).1, h⟩
  labels_eq := rfl

variable {view : View} {ip : Nat} {i : Instruction} {l : String} {v : Int64} {R : Register → Int64}

theorem whole_of_get? (h : view.get? ip = some i) : view.whole.get? ip = some i := (view.get?_eq h).2

theorem lt_stop (h : view.get? ip = some i) : ip < view.stop := (view.get?_eq h).1

/-- A label has one address in the part and in the whole. -/
theorem addressOf?_eq (l : String) : view.addressOf? l = view.whole.addressOf? l := by
  rw [Image.addressOf?, Image.addressOf?, view.labels_eq]

/-- So an instruction puts one value on the stack. -/
theorem pushed?_eq : i.pushed? view.toImage R = i.pushed? view.whole R := by
  cases i <;> simp only [Instruction.pushed?, addressOf?_eq]

end View

end Fool
