/-!
# Interned names

A `Symbol` stands for a name; `Names` is the list of all names met so far, each once, numbered in the order in
which they were first met. A symbol keeps its name for ever (`intern` only appends).
-/

namespace Fool

/-- A name, by its place in the list of names met so far. -/
structure Symbol where
  index : Nat
deriving DecidableEq, Repr, Inhabited

/-- The names met so far, each once, in the order of their first use. -/
structure Names where
  entries : Array String
deriving DecidableEq, Repr, Inhabited

namespace Names

/-- No name has been met. -/
def empty : Names := ⟨#[]⟩

/-- How many different names have been met. -/
def size (t : Names) : Nat := t.entries.size

/-- The symbol of a name that has been met. -/
def find? (t : Names) (name : String) : Option Symbol := (t.entries.findIdx? (· == name)).map Symbol.mk

/-- The symbol of a name; a new name gets the next number. -/
def intern (t : Names) (name : String) : Symbol × Names :=
  match t.find? name with
  | some s => (s, t)
  | none => (⟨t.size⟩, ⟨t.entries.push name⟩)

/-- The name of a symbol. -/
def resolve? (t : Names) (s : Symbol) : Option String := t.entries[s.index]?

/-- The name of a symbol as messages show it. -/
def text (t : Names) (s : Symbol) : String := (t.resolve? s).getD "<unknown>"

/-- The symbol under which a name was met resolves to the name. -/
theorem resolve?_of_find? {t : Names} {name : String} {s : Symbol} (h : t.find? name = some s) :
    t.resolve? s = some name := by
  unfold find? at h
  obtain ⟨i, hi, rfl⟩ := Option.map_eq_some_iff.1 h
  obtain ⟨hlt, heq, _⟩ := Array.findIdx?_eq_some_iff_getElem.1 hi
  simp only [resolve?, Array.getElem?_eq_getElem hlt, eq_of_beq heq]

/-- The symbol of a name resolves to the name. -/
theorem resolve?_intern (t : Names) (name : String) : (t.intern name).2.resolve? (t.intern name).1 = some name := by
  unfold intern
  cases h : t.find? name with
  | some s => exact resolve?_of_find? h
  | none => simp [resolve?, size]

/-- A symbol keeps its name. -/
theorem resolve?_intern_of_some {t : Names} {s : Symbol} {n : String} (name : String) (h : t.resolve? s = some n) :
    (t.intern name).2.resolve? s = some n := by
  unfold intern
  cases t.find? name with
  | some _ => exact h
  | none =>
    have hlt := (Array.getElem?_eq_some_iff.1 h).1
    simp only [resolve?] at h ⊢
    rw [Array.getElem?_push_lt hlt, ← Array.getElem?_eq_getElem hlt, h]

/-- A name that has been met has a symbol. -/
theorem find?_intern (t : Names) (name : String) : (t.intern name).2.find? name = some (t.intern name).1 := by
  unfold intern
  cases h : t.find? name with
  | some s => exact h
  | none =>
    have hnone : t.entries.findIdx? (· == name) = none := by simpa [find?] using h
    simp [find?, size, Array.findIdx?_push, hnone]

/-- A name keeps its symbol. -/
theorem find?_intern_of_some {t : Names} {n : String} {s : Symbol} (name : String) (h : t.find? n = some s) :
    (t.intern name).2.find? n = some s := by
  unfold intern
  cases t.find? name with
  | some _ => exact h
  | none =>
    unfold find? at h ⊢
    obtain ⟨i, hi, rfl⟩ := Option.map_eq_some_iff.1 h
    rw [Array.findIdx?_push, hi]
    rfl

end Names

end Fool
