import Fool.Location
import Fool.Names

/-!
# Programs as trees

Expressions and declarations live in an `Arena` and refer to each other by number, so that later stages attach what
they find out to a number. Every expression is stored with the place it came from, if it came from a text.
-/

namespace Fool

/-- A type as it is written. -/
inductive Ty where
  | int
  | bool
  | object (name : Symbol)
  | arrow (params : List Ty) (ret : Ty)
deriving Repr, Inhabited

mutual

/-- Whether two types are written the same. -/
def Ty.decEq : (a b : Ty) → Decidable (a = b)
  | .int, .int | .bool, .bool => isTrue rfl
  | .object m, .object n => decidable_of_iff (m = n) ⟨congrArg Ty.object, Ty.object.inj⟩
  | .arrow ps r, .arrow qs s =>
    match Ty.decEqAll ps qs, Ty.decEq r s with
    | isTrue hs, isTrue h => isTrue (by rw [hs, h])
    | isFalse hs, _ => isFalse fun heq => hs (Ty.arrow.inj heq).1
    | _, isFalse h => isFalse fun heq => h (Ty.arrow.inj heq).2
  | .int, .bool | .int, .object _ | .int, .arrow .. | .bool, .int | .bool, .object _ | .bool, .arrow ..
  | .object _, .int | .object _, .bool | .object _, .arrow .. | .arrow .., .int | .arrow .., .bool
  | .arrow .., .object _ => isFalse nofun

/-- Whether two lists of types are written the same. -/
def Ty.decEqAll : (as bs : List Ty) → Decidable (as = bs)
  | [], [] => isTrue rfl
  | a :: as, b :: bs =>
    match Ty.decEq a b, Ty.decEqAll as bs with
    | isTrue h, isTrue hs => isTrue (by rw [h, hs])
    | isFalse h, _ => isFalse fun heq => h (List.cons.inj heq).1
    | _, isFalse hs => isFalse fun heq => hs (List.cons.inj heq).2
  | [], _ :: _ | _ :: _, [] => isFalse nofun

end

instance : DecidableEq Ty := Ty.decEq

/-- The number of an expression. -/
structure ExprRef where
  index : Nat
deriving DecidableEq, Repr, Inhabited

/-- The number of a declaration. -/
structure DeclRef where
  index : Nat
deriving DecidableEq, Repr, Inhabited

/-- The operators of two operands. -/
inductive Operator where
  | add | sub | mul | div | equal | lessEqual | greaterEqual | and | or
deriving DecidableEq, Repr

/-- An expression, its parts given by number. -/
inductive Expr where
  | int (value : Int64)
  | bool (value : Bool)
  | null
  | binary (op : Operator) (left right : ExprRef)
  | not (operand : ExprRef)
  | ifElse (condition onTrue onFalse : ExprRef)
  | print (operand : ExprRef)
  | name (name : Symbol)
  | call (function : Symbol) (args : List ExprRef)
  | methodCall (receiver method : Symbol) (args : List ExprRef)
  | new (name : Symbol) (args : List ExprRef)
deriving DecidableEq, Repr

/-- An expression and its place. -/
structure Node where
  expr : Expr
  location : Option Location
deriving DecidableEq, Repr

/-- A parameter or a field: its name, its type and the place of the name. -/
structure TypedName where
  name : Symbol
  ty : Ty
  location : Option Location
deriving DecidableEq, Repr

/-- A function or a method. -/
structure Function where
  name : Symbol
  returnType : Ty
  params : List TypedName
  locals : List DeclRef
  body : ExprRef
  location : Option Location
deriving DecidableEq, Repr

/-- The type of a function as a whole. -/
def Function.arrowType (f : Function) : Ty := .arrow (f.params.map (·.ty)) f.returnType

/-- A variable and its initial value. -/
structure Variable where
  name : Symbol
  ty : Ty
  init : ExprRef
  location : Option Location
deriving DecidableEq, Repr

/-- A class: fields, which its objects are made of, and methods. -/
structure Class where
  name : Symbol
  fields : List TypedName
  methods : List Function
  location : Option Location
deriving DecidableEq, Repr

/-- A declaration. -/
inductive Decl where
  | varDecl (v : Variable)
  | funDecl (f : Function)
  | classDecl (c : Class)
deriving DecidableEq, Repr

/-- The name that a declaration declares. -/
def Decl.name : Decl → Symbol
  | varDecl v => v.name
  | funDecl f => f.name
  | classDecl c => c.name

/-- The expressions and declarations of a program, in the order in which they were added. -/
structure Arena where
  nodes : Array Node
  decls : Array Decl
deriving DecidableEq, Repr

namespace Arena

/-- Nothing has been added. -/
def empty : Arena := ⟨#[], #[]⟩

/-- Adds an expression. -/
def addExpr (a : Arena) (e : Expr) (location : Option Location) : ExprRef × Arena :=
  (⟨a.nodes.size⟩, { a with nodes := a.nodes.push ⟨e, location⟩ })

/-- Adds a declaration. -/
def addDecl (a : Arena) (d : Decl) : DeclRef × Arena := (⟨a.decls.size⟩, { a with decls := a.decls.push d })

/-- The expression with a number. -/
def expr? (a : Arena) (e : ExprRef) : Option Expr := a.nodes[e.index]?.map (·.expr)

/-- The place of the expression with a number. -/
def location? (a : Arena) (e : ExprRef) : Option Location := a.nodes[e.index]?.bind (·.location)

/-- The declaration with a number. -/
def decl? (a : Arena) (d : DeclRef) : Option Decl := a.decls[d.index]?

/-- An added expression has the number that adding it gave. -/
theorem expr?_addExpr_self (a : Arena) (e : Expr) (l : Option Location) :
    (a.addExpr e l).2.expr? (a.addExpr e l).1 = some e := by
  simp [addExpr, expr?]

/-- Expressions keep their numbers. -/
theorem expr?_addExpr_of_some {a : Arena} {r : ExprRef} {x : Expr} (e : Expr) (l : Option Location)
    (h : a.expr? r = some x) : (a.addExpr e l).2.expr? r = some x := by
  unfold expr? at h ⊢
  obtain ⟨n, hn, rfl⟩ := Option.map_eq_some_iff.1 h
  have hlt : r.index < a.nodes.size := (Array.getElem?_eq_some_iff.1 hn).1
  rw [addExpr, Array.getElem?_push_lt hlt, ← Array.getElem?_eq_getElem hlt, hn, Option.map_some]

end Arena

/-- A program: declarations, then an expression whose value is the result. -/
structure Program where
  arena : Arena
  declarations : List DeclRef
  body : ExprRef
deriving DecidableEq, Repr

end Fool
