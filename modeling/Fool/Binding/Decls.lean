import Fool.Binding.Exprs

/-!
# Binding declarations

A variable is declared behind its initial value, which cannot use it; a function, a method and a class are declared
in front of their bodies, which can. A class belongs at the outermost scope.
-/

namespace Fool

namespace Binder

variable (arena : Arena) (names : Names)

/-- Binds an expression that no other contains. -/
def whole (e : ExprRef) : BindM Unit := expr arena names maxNesting e

/-- The types of the parameters of a function. -/
def paramTypes : CheckedType → List CheckedType
  | .arrow params _ => params
  | _ => []

/-- Declares names with their types, each of one kind. -/
def declareAll (kind : EntryKind) (members : List TypedName) (types : List CheckedType) : BindM Unit :=
  (members.zip types).forM fun (m, ty) => do
    let _ ← declare names m.name ty kind m.location

/-- Declares a function of type `ty` and binds its parts in a scope of its own. -/
def function (bindLocal : DeclRef → BindM Unit) (f : Function) (ty : CheckedType) (kind : EntryKind) :
    BindM Unit := do
  let _ ← declare names f.name ty kind f.location
  let _ ← inScope (.empty .function) do
    declareAll names .param f.params (paramTypes ty)
    f.locals.forM bindLocal
    whole arena names f.body

/-- The types of the members of a class, looked up member by member. -/
def classShape (c : Class) : BindM ClassShape := do
  let fields ← c.fields.mapM fun m => checkType names m.location m.ty
  let methods ← c.methods.mapM fun m => checkType names m.location m.arrowType
  return ⟨c.name, fields, methods⟩

/-- Declares a class and binds its members in a scope of its own, which is kept if the name was free. -/
def classBody (bindLocal : DeclRef → BindM Unit) (c : Class) : BindM Unit := do
  modify fun b => { b with currentClass := some c.name }
  let shape ← classShape names c
  let declared ← declare names c.name shape.type .cls c.location
  let scope ← inScope (.empty (.cls c.name)) do
    declareAll names .field c.fields shape.fields
    (c.methods.zip shape.methods).forM fun (m, ty) => function arena names bindLocal m ty .method
  modify fun b => { b with currentClass := none }
  match declared, scope with
  | true, some scope => modify fun b => { b with classes := b.classes.insertNew c.name ⟨shape, scope⟩ }
  | _, _ => pure ()

/-- Binds a declaration, whose local declarations may be nested as deep as the number says. -/
def decl : Nat → DeclRef → BindM Unit
  | 0, _ => pure ()
  | n + 1, d =>
    match arena.decl? d with
    | none => pure ()
    | some (.varDecl v) => do
      whole arena names v.init
      let ty ← checkType names v.location v.ty
      let _ ← declare names v.name ty .var v.location
    | some (.funDecl f) => do
      let ty ← checkType names f.location f.arrowType
      function arena names (decl n) f ty .func
    | some (.classDecl c) => do
      if (← get).scopes.depth = 0 then
        classBody arena names (decl n) c
      else
        report (.misplacedClass (names.text c.name)) c.location

end Binder

end Fool
