import Fool.Binding.Basic

/-!
# Binding with a counter

How deep binding is inside an expression can be kept in a counter, beside everything else that binding holds: it is raised
in front of an expression and lowered behind it, and where it says that the expression is nested too deep, that is reported
instead. `Binder.expr` and `Binder.decl` take the levels that are left as an argument; here they are counted. The fuel of
`Counted.expr` does not matter as long as it exceeds the levels that are left.
-/

namespace Fool

namespace Binder

/-- A step of binding that has the counter. -/
abbrev CountM := StateT Nat BindM

namespace Counted

variable (arena : Arena) (names : Names)

/-- Runs `body` one level deeper, unless that is too deep for the expression. -/
def nested (e : ExprRef) (body : CountM Unit) : CountM Unit := do
  let nesting ← getThe Nat
  if maxNesting ≤ nesting then
    liftM (report (.nestingTooDeep maxNesting) (arena.location? e))
  else
    modifyThe Nat (· + 1)
    body
    modifyThe Nat (· - 1)

/-- Binds an expression. -/
def expr : Nat → ExprRef → CountM Unit
  | 0, _ => pure ()
  | n + 1, e => nested arena e do
    match arena.expr? e with
    | none | some (.int _) | some (.bool _) | some .null => pure ()
    | some (.binary ..) => do
      let spine := arena.leftSpine (fun _ => true) e
      expr n spine.1
      spine.2.forM fun (_, right) => expr n right
    | some (.not operand) | some (.print operand) => expr n operand
    | some (.ifElse condition onTrue onFalse) => do
      expr n condition
      expr n onTrue
      expr n onFalse
    | some (.name name) => liftM (resolveValue arena names e name)
    | some (.call function args) => do
      let _ ← liftM (resolveName arena names e function)
      args.forM (expr n)
    | some (.methodCall receiver method args) => do
      liftM (resolveMethod arena names e receiver method)
      args.forM (expr n)
    | some (.new name args) => do
      liftM (resolveNew arena names e name)
      args.forM (expr n)

/-- Binds an expression that no other contains. -/
def whole (e : ExprRef) : CountM Unit := expr arena names (maxNesting + 1) e

/-- Runs `body` inside `scope` and gives the scope as `body` left it. -/
def inScope (scope : Scope) (body : CountM Unit) : CountM (Option Scope) := do
  modifyThe Binder fun b => { b with scopes := b.scopes.push scope }
  body
  let inner := (← getThe Binder).scopes.current?
  modifyThe Binder fun b => { b with scopes := b.scopes.pop }
  return inner

/-- Declares a function of type `ty` and binds its parts in a scope of its own. -/
def function (bindLocal : DeclRef → CountM Unit) (f : Function) (ty : CheckedType) (kind : EntryKind) : CountM Unit := do
  let _ ← liftM (declare names f.name ty kind f.location)
  let _ ← inScope (.empty .function) do
    liftM (declareAll names .param f.params (paramTypes ty))
    f.locals.forM bindLocal
    whole arena names f.body

/-- Declares a class and binds its members in a scope of its own, which is kept if the name was free. -/
def classBody (bindLocal : DeclRef → CountM Unit) (c : Class) : CountM Unit := do
  modifyThe Binder fun b => { b with currentClass := some c.name }
  let shape ← liftM (classShape names c)
  let declared ← liftM (declare names c.name shape.type .cls c.location)
  let scope ← inScope (.empty (.cls c.name)) do
    liftM (declareAll names .field c.fields shape.fields)
    (c.methods.zip shape.methods).forM fun (m, ty) => function arena names bindLocal m ty .method
  modifyThe Binder fun b => { b with currentClass := none }
  match declared, scope with
  | true, some scope => modifyThe Binder fun b => { b with classes := b.classes.insertNew c.name ⟨shape, scope⟩ }
  | _, _ => pure ()

/-- Binds a declaration, whose local declarations may be nested as deep as the number says. -/
def decl : Nat → DeclRef → CountM Unit
  | 0, _ => pure ()
  | n + 1, d =>
    match arena.decl? d with
    | none => pure ()
    | some (.varDecl v) => do
      whole arena names v.init
      let ty ← liftM (checkType names v.location v.ty)
      let _ ← liftM (declare names v.name ty .var v.location)
    | some (.funDecl f) => do
      let ty ← liftM (checkType names f.location f.arrowType)
      function arena names (decl n) f ty .func
    | some (.classDecl c) => do
      if (← getThe Binder).scopes.depth = 0 then
        classBody arena names (decl n) c
      else
        liftM (report (.misplacedClass (names.text c.name)) c.location)

/-- Binds the declarations and the body of a program inside the global scope. -/
def program (p : Program) : CountM Unit := do
  let _ ← inScope (.empty .global) do
    p.declarations.forM (decl p.arena names (p.arena.decls.size + 1))
    whole p.arena names p.body

end Counted

end Binder

end Fool
