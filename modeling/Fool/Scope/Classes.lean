import Fool.Scope.Basic

/-!
# Classes whose body has been read

A `ClassTable` keeps the shape and the scope of every class; the first class of a name stays.
-/

namespace Fool

/-- A class: the types of its members, and the scope that declares them. -/
structure ClassInfo where
  shape : ClassShape
  scope : Scope
deriving Repr

/-- The classes by name, in the order in which they were read. -/
structure ClassTable where
  entries : List (Symbol × ClassInfo)
deriving Repr

namespace ClassTable

/-- No class has been read. -/
def empty : ClassTable := ⟨[]⟩

/-- The class with a name. -/
def get? (t : ClassTable) (name : Symbol) : Option ClassInfo := (t.entries.find? (·.1 = name)).map (·.2)

/-- Whether there is a class with this name. -/
def contains (t : ClassTable) (name : Symbol) : Bool := (t.get? name).isSome

/-- How many classes there are. -/
def size (t : ClassTable) : Nat := t.entries.length

/-- Adds a class, unless there is one with this name. -/
def insertNew (t : ClassTable) (name : Symbol) (info : ClassInfo) : ClassTable :=
  if t.contains name then t else ⟨t.entries ++ [(name, info)]⟩

/-- A field or a method of a class. -/
def member? (t : ClassTable) (name member : Symbol) : Option Entry := (t.get? name).bind (·.scope.get? member)

/-- The classes that were there stay; the new one is found if its name was free. -/
theorem get?_insertNew (t : ClassTable) (name other : Symbol) (info : ClassInfo) :
    (t.insertNew name info).get? other = (t.get? other).or (if name = other then some info else none) := by
  unfold insertNew contains
  split
  · rename_i h
    by_cases hn : name = other
    · subst hn
      simp [Option.or_of_isSome h]
    · simp [hn]
  · simp only [get?, List.find?_append]
    by_cases hn : name = other
    · subst hn
      cases List.find? (fun x => decide (x.1 = name)) t.entries <;> simp
    · cases List.find? (fun x => decide (x.1 = other)) t.entries <;> simp [hn]

end ClassTable

end Fool
