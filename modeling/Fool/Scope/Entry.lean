import Fool.Tree.Basic

/-!
# Declared names

An `Entry` says what a name was declared as, how deep, and where its value lies in the frame or the object that
holds it. A `Resolution` says which entry a reference means and from how deep it is made.
-/

namespace Fool

/-- A type whose class names have been looked up. -/
inductive CheckedType where
  | int
  | bool
  | null
  | object (name : Symbol)
  | arrow (params : List CheckedType) (ret : CheckedType)
  | classOf (name : Symbol) (fields methods : List CheckedType)
deriving Repr, Inhabited

/-- The class of which values of the type are objects. -/
def CheckedType.className? : CheckedType → Option Symbol
  | object name => some name
  | _ => none

/-- The types of the fields and of the methods of a class, in the order of their declaration. -/
structure ClassShape where
  name : Symbol
  fields : List CheckedType
  methods : List CheckedType
deriving Repr

/-- The type that the name of a class has. -/
def ClassShape.type (s : ClassShape) : CheckedType := .classOf s.name s.fields s.methods

/-- What a name is declared as. -/
inductive EntryKind where
  | var | param | func | cls | field | method
deriving DecidableEq, Repr

/-- Parameters and methods are counted upwards, the others downwards. -/
def EntryKind.takesSlot : EntryKind → Bool
  | param | method => true
  | _ => false

/-- A declared name: its kind, the depth of its scope (the global scope has depth 0), its place relative to its
frame or object, and its type. -/
structure Entry where
  kind : EntryKind
  depth : Nat
  offset : Int
  ty : CheckedType
deriving Repr

/-- What a reference means: the entry, the depth from which it is made, and for a call of a method the method. -/
structure Resolution where
  entry : Entry
  callDepth : Nat
  method : Option Entry
deriving Repr

/-- How many scopes lie between the reference and the declaration. -/
def Resolution.hops (r : Resolution) : Nat := r.callDepth - r.entry.depth

/-- What the references of a program mean, by the number of the expression. -/
structure Resolutions where
  cells : Array (Option Resolution)
deriving Repr

namespace Resolutions

/-- None of `n` expressions has a meaning yet. -/
def blank (n : Nat) : Resolutions := ⟨Array.replicate n none⟩

/-- What an expression means. -/
def get? (t : Resolutions) (e : ExprRef) : Option Resolution := t.cells[e.index]?.join

/-- Gives an expression its meaning. -/
def set (t : Resolutions) (e : ExprRef) (r : Resolution) : Resolutions :=
  ⟨t.cells.setIfInBounds e.index (some r)⟩

/-- The expressions that have a meaning, in the order of their numbers. -/
def toList (t : Resolutions) : List (ExprRef × Resolution) :=
  t.cells.toList.zipIdx.filterMap fun (r, i) => r.map (⟨i⟩, ·)

/-- How many expressions have a meaning. -/
def count (t : Resolutions) : Nat := t.cells.countP Option.isSome

/-- What an expression means after another, or the same, has been given its meaning. -/
theorem get?_set (t : Resolutions) (e e' : ExprRef) (r : Resolution) :
    (t.set e r).get? e' = if e = e' ∧ e.index < t.cells.size then some r else t.get? e' := by
  obtain ⟨i⟩ := e
  obtain ⟨j⟩ := e'
  simp only [get?, set, Array.getElem?_setIfInBounds, ExprRef.mk.injEq]
  by_cases h : i = j
  · subst h
    by_cases hi : i < t.cells.size <;> simp [hi]
  · simp [h]

end Resolutions

end Fool
