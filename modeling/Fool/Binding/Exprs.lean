import Fool.Binding.State
import Fool.Tree.Spine

/-!
# Binding expressions

Each name, call and `new` is given its meaning. A chain of operators counts as one level of nesting, however long it
is: its leftmost operand and its right operands are bound one level below the chain.
-/

namespace Fool

namespace Binder

/-- How deep expressions may be nested. -/
def maxNesting : Nat := 512

variable (arena : Arena) (names : Names)

/-- The meaning of a name, which is the declaration visible here. -/
def resolveName (e : ExprRef) (name : Symbol) : BindM (Option Resolution) := do
  let b ← get
  match b.scopes.lookup? name with
  | some entry =>
    let r : Resolution := ⟨entry, b.scopes.depth, none⟩
    resolve e r
    return some r
  | none =>
    report (.unresolvedIdentifier (names.text name)) (arena.location? e)
    return none

/-- The meaning of a name used as a value. A function as a value carries its code alone, so it must be global. -/
def resolveValue (e : ExprRef) (name : Symbol) : BindM Unit := do
  match ← resolveName arena names e name with
  | some r =>
    if (r.entry.kind = .func ∨ r.entry.kind = .method) ∧ 0 < r.entry.depth then
      report (.localFunctionValue (names.text name)) (arena.location? e)
  | none => pure ()

/-- The meaning of a call of a method: the receiver and the method of its class. A class that is not known was
reported where the receiver was declared. -/
def resolveMethod (e : ExprRef) (receiver method : Symbol) : BindM Unit := do
  let b ← get
  let place := arena.location? e
  match b.scopes.lookup? receiver with
  | none => report (.unresolvedIdentifier (names.text receiver)) place
  | some entry =>
    match entry.ty.className? with
    | none => report (.notAnObject (names.text receiver)) place
    | some cls =>
      if b.knowsClass cls then
        match (b.member? cls method).filter (·.kind = .method) with
        | some m => resolve e ⟨entry, b.scopes.depth, some m⟩
        | none => report (.unknownMethod (names.text cls) (names.text method)) place

/-- The meaning of `new`: the global class. -/
def resolveNew (e : ExprRef) (cls : Symbol) : BindM Unit := do
  let b ← get
  match b.scopes.globalClass? cls with
  | some entry => resolve e ⟨entry, b.scopes.depth, none⟩
  | none => report (.unknownClass (names.text cls)) (arena.location? e)

/-- Binds an expression, whose parts may be nested as deep as the number says. -/
def expr : Nat → ExprRef → BindM Unit
  | 0, e => report (.nestingTooDeep maxNesting) (arena.location? e)
  | n + 1, e =>
    match arena.expr? e with
    | none | some (.int _) | some (.bool _) | some .null => pure ()
    | some (.binary ..) => do
      let spine := arena.leftSpine (fun _ => true) e
      expr n spine.1
      spine.2.forM fun (_, right) => expr n right
    | some (.not operand) | some (.print operand) => expr n operand
    | some (.ifElse condition onTrue onFalse) => do
      expr n condition
      expr n onTrue
      expr n onFalse
    | some (.name name) => resolveValue arena names e name
    | some (.call function args) => do
      let _ ← resolveName arena names e function
      args.forM (expr n)
    | some (.methodCall receiver method args) => do
      resolveMethod arena names e receiver method
      args.forM (expr n)
    | some (.new name args) => do
      resolveNew arena names e name
      args.forM (expr n)

end Binder

end Fool
