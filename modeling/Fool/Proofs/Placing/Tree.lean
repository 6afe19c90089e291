import Fool.Tree.Spine

/-!
# Programs without places

`unplaced` takes the places out of a tree. Numbers, symbols and types stay, so that looking up an expression and walking
down a chain of operators see no difference.
-/

namespace Fool

/-- The node without its place. -/
def Node.unplaced (n : Node) : Node := { n with location := none }

/-- The parameter or field without its place. -/
def TypedName.unplaced (x : TypedName) : TypedName := { x with location := none }

/-- The function without places. -/
def Function.unplaced (f : Function) : Function := { f with params := f.params.map TypedName.unplaced, location := none }

@[simp] theorem Function.arrowType_unplaced (f : Function) : f.unplaced.arrowType = f.arrowType := by
  simp [arrowType, unplaced, TypedName.unplaced]

/-- The variable without its place. -/
def Variable.unplaced (v : Variable) : Variable := { v with location := none }

/-- The class without places. -/
def Class.unplaced (c : Class) : Class :=
  { c with fields := c.fields.map TypedName.unplaced, methods := c.methods.map Function.unplaced, location := none }

/-- The declaration without places. -/
def Decl.unplaced : Decl → Decl
  | .varDecl v => .varDecl v.unplaced
  | .funDecl f => .funDecl f.unplaced
  | .classDecl c => .classDecl c.unplaced

namespace Arena

/-- The arena without places. -/
def unplaced (a : Arena) : Arena := ⟨a.nodes.map Node.unplaced, a.decls.map Decl.unplaced⟩

variable (a : Arena)

@[simp] theorem size_nodes_unplaced : a.unplaced.nodes.size = a.nodes.size := Array.size_map

@[simp] theorem size_decls_unplaced : a.unplaced.decls.size = a.decls.size := Array.size_map

theorem addExpr_unplaced (e : Expr) (place : Option Location) :
    a.unplaced.addExpr e none = ((a.addExpr e place).1, (a.addExpr e place).2.unplaced) := by
  simp [addExpr, unplaced, Node.unplaced]

theorem addDecl_unplaced (d : Decl) : a.unplaced.addDecl d.unplaced = ((a.addDecl d).1, (a.addDecl d).2.unplaced) := by
  simp [addDecl, unplaced]

@[simp] theorem expr?_unplaced (e : ExprRef) : a.unplaced.expr? e = a.expr? e := by
  simp [expr?, unplaced, Function.comp_def, Node.unplaced]

@[simp] theorem location?_unplaced (e : ExprRef) : a.unplaced.location? e = none := by
  unfold location? unplaced
  rw [Array.getElem?_map]
  cases a.nodes[e.index]? <;> rfl

@[simp] theorem decl?_unplaced (d : DeclRef) : a.unplaced.decl? d = (a.decl? d).map Decl.unplaced := by
  simp [decl?, unplaced]

theorem leftSpineFrom_unplaced (follow : Operator → Bool) (n : Nat) (e : ExprRef) (passed : List (Operator × ExprRef)) :
    a.unplaced.leftSpineFrom follow n e passed = a.leftSpineFrom follow n e passed := by
  induction n generalizing e passed with
  | zero => rfl
  | succ n ih => simp only [leftSpineFrom, expr?_unplaced, ih]

@[simp] theorem leftSpine_unplaced (follow : Operator → Bool) (e : ExprRef) :
    a.unplaced.leftSpine follow e = a.leftSpine follow e := by
  simp only [leftSpine, size_nodes_unplaced, leftSpineFrom_unplaced]

end Arena

/-- The program without places. -/
def Program.unplaced (p : Program) : Program := { p with arena := p.arena.unplaced }

end Fool
