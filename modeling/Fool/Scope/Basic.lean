import Fool.Scope.Entry

/-!
# Scopes

A `Scope` holds the names declared in one block and hands out their places: in an ordinary scope -2, -3, … for
declarations and 1, 2, … for parameters, in the scope of a class -1, -2, … for fields and 0, 1, … for methods.
`Scopes` is the stack of the scopes that are open, innermost first; a name means its declaration in the innermost
scope that has it.
-/

namespace Fool

/-- What a scope belongs to. -/
inductive ScopeKind where
  | global
  | function
  | cls (name : Symbol)
deriving DecidableEq, Repr

/-- The names of one block in the order of their declaration, and the places that come next. -/
structure Scope where
  kind : ScopeKind
  entries : List (Symbol × Entry)
  nextDeclaration : Int
  nextSlot : Int
deriving Repr

namespace Scope

/-- No name has been declared. -/
def empty (kind : ScopeKind) : Scope :=
  match kind with
  | .cls _ => ⟨kind, [], -1, 0⟩
  | .global | .function => ⟨kind, [], -2, 1⟩

/-- The declaration of a name. -/
def get? (s : Scope) (name : Symbol) : Option Entry := (s.entries.find? (·.1 = name)).map (·.2)

/-- How many names have been declared. -/
def size (s : Scope) : Nat := s.entries.length

/-- The place that a declaration of a kind gets. -/
def nextOffset (s : Scope) (kind : EntryKind) : Int := if kind.takesSlot then s.nextSlot else s.nextDeclaration

/-- Declares a name; a name that is taken is refused. -/
def declare (s : Scope) (name : Symbol) (depth : Nat) (ty : CheckedType) (kind : EntryKind) :
    Option (Entry × Scope) :=
  if (s.get? name).isSome then
    none
  else
    let entry : Entry := ⟨kind, depth, s.nextOffset kind, ty⟩
    let s := { s with entries := s.entries ++ [(name, entry)] }
    if kind.takesSlot then
      some (entry, { s with nextSlot := s.nextSlot + 1 })
    else
      some (entry, { s with nextDeclaration := s.nextDeclaration - 1 })

/-- A name is refused just if it is taken. -/
theorem declare_isSome {s : Scope} {name : Symbol} {depth : Nat} {ty : CheckedType} {kind : EntryKind} :
    (s.declare name depth ty kind).isSome ↔ s.get? name = none := by
  unfold declare
  split
  · simp_all [Option.isSome_iff_ne_none]
  · split <;> simp_all

/-- After a declaration its name has the new entry, and the other names have theirs. -/
theorem get?_declare {s s' : Scope} {name other : Symbol} {depth : Nat} {ty : CheckedType} {kind : EntryKind}
    {e : Entry} (h : s.declare name depth ty kind = some (e, s')) :
    s'.get? other = if name = other then some e else s.get? other := by
  unfold declare at h
  split at h
  · cases h
  · rename_i hfree
    have hs : s'.entries = s.entries ++ [(name, e)] := by
      split at h <;> cases h <;> rfl
    have hnone : s.entries.find? (·.1 = name) = none := by
      simpa only [get?, Option.isSome_map, Option.not_isSome_iff_eq_none] using hfree
    unfold get?
    rw [hs, List.find?_append]
    by_cases hn : name = other
    · subst hn
      rw [hnone]
      simp
    · simp [hn]

end Scope

/-- The open scopes, innermost first. -/
structure Scopes where
  stack : List Scope
deriving Repr

namespace Scopes

/-- No scope is open. -/
def empty : Scopes := ⟨[]⟩

/-- Opens a scope. -/
def push (s : Scopes) (scope : Scope) : Scopes := ⟨scope :: s.stack⟩

/-- Closes the innermost scope. -/
def pop (s : Scopes) : Scopes := ⟨s.stack.tail⟩

/-- The innermost scope. -/
def current? (s : Scopes) : Option Scope := s.stack.head?

/-- The outermost scope. -/
def global? (s : Scopes) : Option Scope := s.stack.getLast?

/-- How deep the innermost scope lies; the outermost has depth 0. -/
def depth (s : Scopes) : Nat := s.stack.length - 1

/-- The declaration that a name means here. -/
def lookup? (s : Scopes) (name : Symbol) : Option Entry := s.stack.findSome? (·.get? name)

/-- The scope of a class, while it is open. -/
def classScope? (s : Scopes) (name : Symbol) : Option Scope := s.stack.find? (·.kind = .cls name)

/-- The class that a name means in the outermost scope. -/
def globalClass? (s : Scopes) (name : Symbol) : Option Entry :=
  (s.global?.bind (·.get? name)).filter (·.kind = .cls)

/-- Declares a name in the innermost scope. -/
def declare (s : Scopes) (name : Symbol) (depth : Nat) (ty : CheckedType) (kind : EntryKind) :
    Option (Entry × Scopes) :=
  match s.stack with
  | [] => none
  | scope :: outer => (scope.declare name depth ty kind).map fun (entry, scope) => (entry, ⟨scope :: outer⟩)

@[simp] theorem pop_push (s : Scopes) (scope : Scope) : (s.push scope).pop = s := rfl

@[simp] theorem current?_push (s : Scopes) (scope : Scope) : (s.push scope).current? = some scope := rfl

/-- The innermost scope comes first. -/
theorem lookup?_push (s : Scopes) (scope : Scope) (name : Symbol) :
    (s.push scope).lookup? name = (scope.get? name).or (s.lookup? name) := by
  simp only [lookup?, push, List.findSome?_cons]
  cases scope.get? name <;> rfl

end Scopes

end Fool
