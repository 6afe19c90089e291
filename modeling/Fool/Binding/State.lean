import Fool.Binding.Error
import Fool.Scope.Classes

/-!
# What binding holds, and its single steps

Binding walks over a program once, from left to right. It keeps the open scopes, the classes read, what the
references mean and the faults found; it goes on after a fault.
-/

namespace Fool

/-- The state of binding. -/
structure Binder where
  scopes : Scopes
  classes : ClassTable
  resolutions : Resolutions
  errors : List BindError
  currentClass : Option Symbol

/-- A step of binding. -/
abbrev BindM := StateM Binder

namespace Binder

/-- Nothing has been bound of `n` expressions. -/
def start (n : Nat) : Binder := ⟨.empty, .empty, .blank n, [], none⟩

/-- Notes a fault. -/
def report (cause : BindError.Cause) (place : Option Location) : BindM Unit :=
  modify fun b => { b with errors := b.errors ++ [⟨cause, place⟩] }

/-- Notes what a reference means. -/
def resolve (e : ExprRef) (r : Resolution) : BindM Unit :=
  modify fun b => { b with resolutions := b.resolutions.set e r }

/-- Runs `body` inside `scope` and gives the scope as `body` left it. -/
def inScope (scope : Scope) (body : BindM Unit) : BindM (Option Scope) := do
  modify fun b => { b with scopes := b.scopes.push scope }
  body
  let inner := (← get).scopes.current?
  modify fun b => { b with scopes := b.scopes.pop }
  return inner

/-- Whether a name is the name of a class: of the one being read, of one read before, or of a global one. -/
def knowsClass (b : Binder) (name : Symbol) : Bool :=
  b.currentClass == some name || b.classes.contains name || (b.scopes.globalClass? name).isSome

/-- A member of a class that has been read, or of the one being read. -/
def member? (b : Binder) (cls name : Symbol) : Option Entry :=
  (b.classes.member? cls name).or ((b.scopes.classScope? cls).bind (·.get? name))

variable (names : Names)

/-- Declares a name in the innermost scope; the answer is whether it was free. -/
def declare (name : Symbol) (ty : CheckedType) (kind : EntryKind) (place : Option Location) : BindM Bool := do
  let b ← get
  match b.scopes.declare name b.scopes.depth ty kind with
  | some (_, scopes) =>
    set { b with scopes }
    return true
  | none =>
    report (.duplicateDeclaration (names.text name)) place
    return false

mutual

/-- Looks up the classes of a type. -/
def checkType (place : Option Location) : Ty → BindM CheckedType
  | .int => return .int
  | .bool => return .bool
  | .object name => do
    if !(← get).knowsClass name then
      report (.unknownClass (names.text name)) place
    return .object name
  | .arrow params ret => do
    let params ← checkTypes place params
    let ret ← checkType place ret
    return .arrow params ret

/-- Looks up the classes of several types, from left to right. -/
def checkTypes (place : Option Location) : List Ty → BindM (List CheckedType)
  | [] => return []
  | ty :: tys => do
    let ty ← checkType place ty
    let tys ← checkTypes place tys
    return ty :: tys

end

end Binder

end Fool
