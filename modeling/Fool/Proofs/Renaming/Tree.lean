import Fool.Scope.Entry
import Fool.Tree.Spine

/-!
# Renaming the symbols of a program

`rename f` takes every symbol of a tree to its image under `f`. The shape of the tree, the numbers and the places stay,
so that looking up a node and walking down a chain of operators commute with it.
-/

namespace Fool

variable (f : Symbol → Symbol)

mutual

/-- The type with its classes renamed. -/
def Ty.rename : Ty → Ty
  | .int => .int
  | .bool => .bool
  | .object name => .object (f name)
  | .arrow params ret => .arrow (Ty.renameAll params) (Ty.rename ret)

/-- The types with their classes renamed. -/
def Ty.renameAll : List Ty → List Ty
  | [] => []
  | ty :: tys => Ty.rename ty :: Ty.renameAll tys

end

@[simp] theorem Ty.renameAll_eq_map (tys : List Ty) : Ty.renameAll f tys = tys.map (Ty.rename f) := by
  induction tys with
  | nil => rfl
  | cons ty tys ih => exact congrArg (ty.rename f :: ·) ih

mutual

/-- The type with its classes renamed. -/
def CheckedType.rename : CheckedType → CheckedType
  | .int => .int
  | .bool => .bool
  | .null => .null
  | .object name => .object (f name)
  | .arrow params ret => .arrow (CheckedType.renameAll params) (CheckedType.rename ret)
  | .classOf name fields methods => .classOf (f name) (CheckedType.renameAll fields) (CheckedType.renameAll methods)

/-- The types with their classes renamed. -/
def CheckedType.renameAll : List CheckedType → List CheckedType
  | [] => []
  | ty :: tys => CheckedType.rename ty :: CheckedType.renameAll tys

end

@[simp] theorem CheckedType.renameAll_eq_map :
    ∀ tys : List CheckedType, CheckedType.renameAll f tys = tys.map (CheckedType.rename f)
  | [] => rfl
  | ty :: tys => congrArg (ty.rename f :: ·) (renameAll_eq_map tys)

@[simp] theorem CheckedType.className?_rename (ty : CheckedType) : (ty.rename f).className? = ty.className?.map f := by
  cases ty <;> rfl

/-! ## Declarations and expressions -/

/-- The parameter or field with its symbols renamed. -/
def TypedName.rename (x : TypedName) : TypedName := ⟨f x.name, x.ty.rename f, x.location⟩

/-- The function with its symbols renamed. -/
def Function.rename (g : Function) : Function :=
  ⟨f g.name, g.returnType.rename f, g.params.map (TypedName.rename f), g.locals, g.body, g.location⟩

@[simp] theorem Function.arrowType_rename (g : Function) : (g.rename f).arrowType = g.arrowType.rename f := by
  simp [Function.arrowType, Function.rename, Ty.rename, TypedName.rename]

/-- The variable with its symbols renamed. -/
def Variable.rename (v : Variable) : Variable := ⟨f v.name, v.ty.rename f, v.init, v.location⟩

/-- The class with its symbols renamed. -/
def Class.rename (c : Class) : Class :=
  ⟨f c.name, c.fields.map (TypedName.rename f), c.methods.map (Function.rename f), c.location⟩

/-- The declaration with its symbols renamed. -/
def Decl.rename : Decl → Decl
  | .varDecl v => .varDecl (v.rename f)
  | .funDecl g => .funDecl (g.rename f)
  | .classDecl c => .classDecl (c.rename f)

/-- The expression with its symbols renamed. -/
def Expr.rename : Expr → Expr
  | .name x => .name (f x)
  | .call x args => .call (f x) args
  | .methodCall x y args => .methodCall (f x) (f y) args
  | .new x args => .new (f x) args
  | e => e

/-- The node with its symbols renamed. -/
def Node.rename (n : Node) : Node := ⟨n.expr.rename f, n.location⟩

namespace Arena

/-- The arena with its symbols renamed. -/
def rename (a : Arena) : Arena := ⟨a.nodes.map (Node.rename f), a.decls.map (Decl.rename f)⟩

variable (a : Arena)

@[simp] theorem size_nodes_rename : (a.rename f).nodes.size = a.nodes.size := Array.size_map

@[simp] theorem size_decls_rename : (a.rename f).decls.size = a.decls.size := Array.size_map

@[simp] theorem rename_empty : empty.rename f = empty := by simp [rename, empty]

theorem addExpr_rename (e : Expr) (place : Option Location) :
    (a.rename f).addExpr (e.rename f) place = ((a.addExpr e place).1, (a.addExpr e place).2.rename f) := by
  simp [addExpr, rename, Node.rename]

theorem addDecl_rename (d : Decl) :
    (a.rename f).addDecl (d.rename f) = ((a.addDecl d).1, (a.addDecl d).2.rename f) := by
  simp [addDecl, rename]

@[simp] theorem expr?_rename (e : ExprRef) : (a.rename f).expr? e = (a.expr? e).map (Expr.rename f) := by
  simp [expr?, rename, Function.comp_def, Node.rename]

@[simp] theorem location?_rename (e : ExprRef) : (a.rename f).location? e = a.location? e := by
  unfold location? rename
  rw [Array.getElem?_map]
  cases a.nodes[e.index]? <;> rfl

@[simp] theorem decl?_rename (d : DeclRef) : (a.rename f).decl? d = (a.decl? d).map (Decl.rename f) := by
  simp [decl?, rename]

/-- A walk down the left operands sees no symbol. -/
theorem leftSpineFrom_rename (follow : Operator → Bool) (n : Nat) (e : ExprRef) (passed : List (Operator × ExprRef)) :
    (a.rename f).leftSpineFrom follow n e passed = a.leftSpineFrom follow n e passed := by
  induction n generalizing e passed with
  | zero => rfl
  | succ n ih =>
    simp only [leftSpineFrom, expr?_rename]
    cases a.expr? e with
    | none => rfl
    | some x => cases x <;> simp only [Option.map_some, Expr.rename, ih]

@[simp] theorem leftSpine_rename (follow : Operator → Bool) (e : ExprRef) :
    (a.rename f).leftSpine follow e = a.leftSpine follow e := by
  simp only [leftSpine, size_nodes_rename, leftSpineFrom_rename]

end Arena

/-- The program with its symbols renamed. -/
def Program.rename (p : Program) : Program := ⟨p.arena.rename f, p.declarations, p.body⟩

end Fool
