import Fool.Parse.Program
import Fool.Proofs.Tree.Postorder

/-!
# The grammar of programs

The grammar says which lists of tokens are programs, and which tree each has; there is no state in it and no looking
ahead. A `Lang` relates lists of tokens to what they derive.

    prog       := ("let" decl+ "in")? expr ";"
    decl       := "var" ID ":" any-type "=" expr ";" | function | "class" ID "(" fields? ")" "{" function* "}"
    function   := "fun" ID ":" type "(" params? ")" ("let" decl+ "in")? expr ";"
    any-type   := type | "(" (any-type ("," any-type)*)? ")" "->" type
    type       := "int" | "bool" | ID
    expr       := unary, with the operators of four levels, all grouped to the left
    unary      := "!" unary | primary

The number at a nonterminal says how many levels of nesting may still be opened below it. A level is opened by every
expression, by the operand of every `!`, by the local declarations of every function, also if there are none, and by
every parameter of the type of a function.
-/

namespace Fool

namespace Syntax

/-- Lists of tokens and what they derive. -/
abbrev Lang (α : Type) := List Token → α → Prop

/-! ## Trees -/

/-- What stands at the root of an expression, the names as they are written. -/
inductive Form where
  | int (value : Int64)
  | bool (value : Bool)
  | null
  | binary (op : Operator)
  | not
  | ifElse
  | print
  | name (name : String)
  | call (function : String)
  | methodCall (receiver method : String)
  | new (name : String)

/-- An expression with the place at which it is reported. -/
inductive Tree where
  | node (form : Form) (place : Location) (parts : List Tree)

/-- A type. -/
inductive TypeTree where
  | int
  | bool
  | object (name : String)
  | arrow (params : List TypeTree) (ret : TypeTree)

/-- A parameter or a field. -/
structure Member where
  name : String
  type : TypeTree
  place : Location

mutual

/-- A function or a method. -/
inductive FunctionTree where
  | mk (name : String) (ret : TypeTree) (params : List Member) (locals : List DeclTree) (body : Tree) (place : Location)

/-- A declaration. -/
inductive DeclTree where
  | var (name : String) (type : TypeTree) (init : Tree) (place : Location)
  | function (f : FunctionTree)
  | cls (name : String) (fields : List Member) (methods : List FunctionTree) (place : Location)

end

/-- A program. -/
structure ProgramTree where
  declarations : List DeclTree
  body : Tree

/-! ## Lists -/

section Lists

variable {α : Type}

/-- `item ("," item)*`. -/
inductive Items (item : Lang α) : Lang (List α)
  | one {ts : List Token} {x : α} : item ts x → Items item ts [x]
  | cons {ts us : List Token} {x : α} {xs : List α} {comma : Token} : item ts x → comma.kind = .mark .comma →
      Items item us xs → Items item (ts ++ comma :: us) (x :: xs)

/-- `(item ("," item)*)?`. -/
inductive Listed (item : Lang α) : Lang (List α)
  | none : Listed item [] []
  | some {ts : List Token} {xs : List α} : Items item ts xs → Listed item ts xs

/-- `item*`. -/
inductive Many (item : Lang α) : Lang (List α)
  | nil : Many item [] []
  | cons {ts us : List Token} {x : α} {xs : List α} : item ts x → Many item us xs → Many item (ts ++ us) (x :: xs)

end Lists

/-- What is a level of nesting itself, below which `n` levels may be opened: there is none where no level is left. -/
def Below {α : Type} (lang : Nat → Lang α) : Nat → Lang α
  | 0 => fun _ _ => False
  | n + 1 => lang n

/-! ## Types -/

/-- `"int" | "bool" | ID`. -/
inductive SimpleType : Lang TypeTree
  | int {t : Token} : t.kind = .keyword .intKw → SimpleType [t] .int
  | bool {t : Token} : t.kind = .keyword .boolKw → SimpleType [t] .bool
  | object {t : Token} {name : String} : t.kind = .identifier name → SimpleType [t] (.object name)

/-- `type | "(" (param ("," param)*)? ")" "->" type`. -/
inductive TypeOver (param : Lang TypeTree) : Lang TypeTree
  | simple {ts : List Token} {ty : TypeTree} : SimpleType ts ty → TypeOver param ts ty
  | arrow {ts us : List Token} {params : List TypeTree} {ret : TypeTree} {left right arrow : Token} :
      left.kind = .mark .parenOpen → Listed param ts params → right.kind = .mark .parenClose →
      arrow.kind = .mark .arrow → SimpleType us ret →
      TypeOver param (left :: (ts ++ right :: arrow :: us)) (.arrow params ret)

/-- A type whose parameters may be nested `n` levels deep. -/
def AnyType : Nat → Lang TypeTree
  | 0 => TypeOver fun _ _ => False
  | n + 1 => TypeOver (AnyType n)

theorem anyType_eq (n : Nat) : AnyType n = TypeOver (Below AnyType n) := by cases n <;> rfl

/-- `ID ":" type`. -/
inductive MemberOf (type : Lang TypeTree) : Lang Member
  | mk {ts : List Token} {ty : TypeTree} {id colon : Token} {name : String} : id.kind = .identifier name →
      colon.kind = .mark .colon → type ts ty → MemberOf type (id :: colon :: ts) ⟨name, ty, id.location⟩

/-! ## Expressions -/

/-- The levels of operators, the loosest first. -/
inductive Level where
  | logical | relation | sum | product

/-- The level of an operator. -/
def level : Operator → Level
  | .and | .or => .logical
  | .equal | .lessEqual | .greaterEqual => .relation
  | .add | .sub => .sum
  | .mul | .div => .product

/-- How an operator is written. -/
def sign : Operator → Mark
  | .and => .and
  | .or => .or
  | .equal => .equal
  | .lessEqual => .lessEqual
  | .greaterEqual => .greaterEqual
  | .add => .plus
  | .sub => .minus
  | .mul => .times
  | .div => .divide

/-- `operand (op operand)*` with the operators of a level, grouped to the left. -/
inductive Chain (l : Level) (operand : Lang Tree) : Lang Tree
  | operand {ts : List Token} {t : Tree} : operand ts t → Chain l operand ts t
  | binary {ts us : List Token} {left right : Tree} {op : Operator} {k : Token} : Chain l operand ts left →
      level op = l → k.kind = .mark (sign op) → operand us right →
      Chain l operand (ts ++ k :: us) (.node (.binary op) k.location [left, right])

/-- The four levels of operators. -/
def Operators (unary : Lang Tree) : Lang Tree :=
  Chain .logical (Chain .relation (Chain .sum (Chain .product unary)))

/-- `"(" (expr ("," expr)*)? ")"`. -/
inductive Arguments (expr : Lang Tree) : Lang (List Tree)
  | mk {ts : List Token} {args : List Tree} {left right : Token} : left.kind = .mark .parenOpen →
      Listed expr ts args → right.kind = .mark .parenClose → Arguments expr (left :: (ts ++ [right])) args

/-- An expression without operators outside its parts. -/
inductive Primary (expr : Lang Tree) : Lang Tree
  | number {t : Token} {v : Int64} : t.kind = .number v → Primary expr [t] (.node (.int v) t.location [])
  | negative {minus t : Token} {v : Int64} : minus.kind = .mark .minus → t.kind = .number v →
      Primary expr [minus, t] (.node (.int (-v)) minus.location [])
  | true {t : Token} : t.kind = .keyword .trueKw → Primary expr [t] (.node (.bool true) t.location [])
  | false {t : Token} : t.kind = .keyword .falseKw → Primary expr [t] (.node (.bool false) t.location [])
  | null {t : Token} : t.kind = .keyword .nullKw → Primary expr [t] (.node .null t.location [])
  | parenthesized {ts : List Token} {e : Tree} {left right : Token} : left.kind = .mark .parenOpen → expr ts e →
      right.kind = .mark .parenClose → Primary expr (left :: (ts ++ [right])) e
  | ifElse {cs ts fs : List Token} {c t f : Tree} {kif kthen left right kelse left' right' : Token} :
      kif.kind = .keyword .ifKw → expr cs c → kthen.kind = .keyword .thenKw →
      left.kind = .mark .braceOpen → expr ts t → right.kind = .mark .braceClose →
      kelse.kind = .keyword .elseKw → left'.kind = .mark .braceOpen → expr fs f → right'.kind = .mark .braceClose →
      Primary expr (kif :: (cs ++ kthen :: left :: (ts ++ right :: kelse :: left' :: (fs ++ [right']))))
        (.node .ifElse kif.location [c, t, f])
  | print {ts : List Token} {e : Tree} {k left right : Token} : k.kind = .keyword .printKw →
      left.kind = .mark .parenOpen → expr ts e → right.kind = .mark .parenClose →
      Primary expr (k :: left :: (ts ++ [right])) (.node .print k.location [e])
  | new {ts : List Token} {args : List Tree} {k id : Token} {name : String} : k.kind = .keyword .newKw →
      id.kind = .identifier name → Arguments expr ts args →
      Primary expr (k :: id :: ts) (.node (.new name) id.location args)
  | name {id : Token} {name : String} : id.kind = .identifier name →
      Primary expr [id] (.node (.name name) id.location [])
  | call {ts : List Token} {args : List Tree} {id : Token} {name : String} : id.kind = .identifier name →
      Arguments expr ts args → Primary expr (id :: ts) (.node (.call name) id.location args)
  | methodCall {ts : List Token} {args : List Tree} {id dot id' : Token} {receiver method : String} :
      id.kind = .identifier receiver → dot.kind = .mark .dot → id'.kind = .identifier method →
      Arguments expr ts args →
      Primary expr (id :: dot :: id' :: ts) (.node (.methodCall receiver method) id.location args)

/-- `"!" unary | primary`, from the expressions inside and the operands of `!`. -/
inductive UnaryOver (expr operand : Lang Tree) : Lang Tree
  | primary {ts : List Token} {e : Tree} : Primary expr ts e → UnaryOver expr operand ts e
  | not {ts : List Token} {e : Tree} {k : Token} : k.kind = .mark .not → operand ts e →
      UnaryOver expr operand (k :: ts) (.node .not k.location [e])

/-- A unary expression below which `n` levels may be opened. -/
def Unary : Nat → Lang Tree
  | 0 => UnaryOver (fun _ _ => False) fun _ _ => False
  | n + 1 => UnaryOver (Operators (Unary n)) (Unary n)

/-- An expression, which is a level itself. -/
def Expression (n : Nat) : Lang Tree := Below (fun m => Operators (Unary m)) n

theorem unary_eq (n : Nat) : Unary n = UnaryOver (Expression n) (Below Unary n) := by cases n <;> rfl

/-! ## Declarations -/

/-- `("let" decl+ "in")?`. -/
inductive LetBlock (decl : Lang DeclTree) : Lang (List DeclTree)
  | none : LetBlock decl [] []
  | some {ts us : List Token} {d : DeclTree} {ds : List DeclTree} {klet kin : Token} : klet.kind = .keyword .letKw →
      decl ts d → Many decl us ds → kin.kind = .keyword .inKw →
      LetBlock decl (klet :: (ts ++ us ++ [kin])) (d :: ds)

/-- A function or a method. -/
inductive FunctionDecl (n : Nat) (locals : Lang (List DeclTree)) : Lang FunctionTree
  | mk {rs ps ls es : List Token} {ret : TypeTree} {params : List Member} {ds : List DeclTree} {body : Tree}
      {kfun id colon left right semicolon : Token} {name : String} : kfun.kind = .keyword .funKw →
      id.kind = .identifier name → colon.kind = .mark .colon → SimpleType rs ret → left.kind = .mark .parenOpen →
      Listed (MemberOf (AnyType n)) ps params → right.kind = .mark .parenClose → locals ls ds →
      Expression n es body → semicolon.kind = .mark .semicolon →
      FunctionDecl n locals (kfun :: id :: colon :: (rs ++ left :: (ps ++ right :: (ls ++ (es ++ [semicolon])))))
        (.mk name ret params ds body kfun.location)

/-- A declaration, from the local declarations of its functions. -/
inductive DeclOver (n : Nat) (locals : Lang (List DeclTree)) : Lang DeclTree
  | var {ys es : List Token} {ty : TypeTree} {init : Tree} {kvar id colon assign semicolon : Token}
      {name : String} : kvar.kind = .keyword .varKw → id.kind = .identifier name → colon.kind = .mark .colon →
      AnyType n ys ty → assign.kind = .mark .assign → Expression n es init → semicolon.kind = .mark .semicolon →
      DeclOver n locals (kvar :: id :: colon :: (ys ++ assign :: (es ++ [semicolon])))
        (.var name ty init kvar.location)
  | function {ts : List Token} {f : FunctionTree} : FunctionDecl n locals ts f → DeclOver n locals ts (.function f)
  | cls {fs ms : List Token} {fields : List Member} {methods : List FunctionTree}
      {kclass id left right left' right' : Token} {name : String} : kclass.kind = .keyword .classKw →
      id.kind = .identifier name → left.kind = .mark .parenOpen → Listed (MemberOf SimpleType) fs fields →
      right.kind = .mark .parenClose → left'.kind = .mark .braceOpen → Many (FunctionDecl n locals) ms methods →
      right'.kind = .mark .braceClose →
      DeclOver n locals (kclass :: id :: left :: (fs ++ right :: left' :: (ms ++ [right'])))
        (.cls name fields methods kclass.location)

/-- With such a token a declaration begins. -/
def BeginsDecl (k : TokenKind) : Prop := k = .keyword .varKw ∨ k = .keyword .funKw ∨ k = .keyword .classKw

/-- A declaration below which `n` levels may be opened. The local declarations of a function are a level, also if there
are none. -/
def Declaration : Nat → Lang DeclTree
  | 0 => DeclOver 0 fun _ _ => False
  | n + 1 => DeclOver (n + 1) (LetBlock (Declaration n))

/-- The local declarations of a function, which are a level themselves. -/
def Locals (n : Nat) : Lang (List DeclTree) := Below (fun m => LetBlock (Declaration m)) n

theorem declaration_eq (n : Nat) : Declaration n = DeclOver n (Locals n) := by cases n <;> rfl

/-- **A whole program,** up to the end of the input, below which `n` levels may be opened. -/
inductive Whole (n : Nat) : Lang ProgramTree
  | mk {ts us : List Token} {ds : List DeclTree} {body : Tree} {semicolon stop : Token} :
      LetBlock (Declaration n) ts ds → Expression n us body → semicolon.kind = .mark .semicolon →
      stop.kind = .endOfInput → Whole n (ts ++ (us ++ [semicolon, stop])) ⟨ds, body⟩

/-! ## Trees in the arena -/

variable (a : Arena) (names : Names)

/-- The expression has this form, with the symbols of the names. -/
def Form.Fits : Form → Expr → Prop
  | .int v, .int w => w = v
  | .bool b, .bool c => c = b
  | .null, .null => True
  | .binary op, .binary op' _ _ => op' = op
  | .not, .not _ => True
  | .ifElse, .ifElse .. => True
  | .print, .print _ => True
  | .name x, .name s => names.find? x = some s
  | .call f, .call s _ => names.find? f = some s
  | .methodCall r m, .methodCall s s' _ => names.find? r = some s ∧ names.find? m = some s'
  | .new c, .new s _ => names.find? c = some s
  | _, _ => False

mutual

/-- In the arena the expression is this tree, stored with its place. -/
def Tree.Stands : Tree → ExprRef → Prop
  | .node form place parts, e => ∃ x, a.nodes[e.index]? = some ⟨x, some place⟩ ∧ form.Fits names x ∧
      Tree.StandAll parts x.parts

/-- The expressions are these trees. -/
def Tree.StandAll : List Tree → List ExprRef → Prop
  | [], [] => True
  | t :: ts, e :: es => t.Stands e ∧ Tree.StandAll ts es
  | _, _ => False

end

mutual

/-- The type is this one. -/
def TypeTree.Is : TypeTree → Ty → Prop
  | .int, .int => True
  | .bool, .bool => True
  | .object name, .object s => names.find? name = some s
  | .arrow params ret, .arrow tys ty => TypeTree.AreAll params tys ∧ ret.Is ty
  | _, _ => False

/-- The types are these. -/
def TypeTree.AreAll : List TypeTree → List Ty → Prop
  | [], [] => True
  | t :: ts, ty :: tys => t.Is ty ∧ TypeTree.AreAll ts tys
  | _, _ => False

end

/-- The parameter or field is this one. -/
def Member.Is (m : Member) (x : TypedName) : Prop :=
  names.find? m.name = some x.name ∧ m.type.Is names x.ty ∧ x.location = some m.place

mutual

/-- The function is this one. -/
def FunctionTree.Is : FunctionTree → Function → Prop
  | .mk name ret params locals body place, f => names.find? name = some f.name ∧ ret.Is names f.returnType ∧
      List.Forall₂ (Member.Is names) params f.params ∧ DeclTree.StandAll locals f.locals ∧
      body.Stands a names f.body ∧ f.location = some place

/-- The functions are these. -/
def FunctionTree.AreAll : List FunctionTree → List Function → Prop
  | [], [] => True
  | t :: ts, f :: fs => t.Is f ∧ FunctionTree.AreAll ts fs
  | _, _ => False

/-- In the arena the declaration is this tree. -/
def DeclTree.Stands : DeclTree → DeclRef → Prop
  | .var name type init place, d => ∃ v, a.decl? d = some (.varDecl v) ∧ names.find? name = some v.name ∧
      type.Is names v.ty ∧ init.Stands a names v.init ∧ v.location = some place
  | .function tree, d => ∃ f, a.decl? d = some (.funDecl f) ∧ tree.Is f
  | .cls name fields methods place, d => ∃ c, a.decl? d = some (.classDecl c) ∧ names.find? name = some c.name ∧
      List.Forall₂ (Member.Is names) fields c.fields ∧ FunctionTree.AreAll methods c.methods ∧ c.location = some place

/-- The declarations are these trees. -/
def DeclTree.StandAll : List DeclTree → List DeclRef → Prop
  | [], [] => True
  | t :: ts, d :: ds => t.Stands d ∧ DeclTree.StandAll ts ds
  | _, _ => False

end

/-- The program is this tree. -/
def ProgramTree.Is (t : ProgramTree) (p : Program) : Prop :=
  DeclTree.StandAll p.arena names t.declarations p.declarations ∧ t.body.Stands p.arena names p.body

end Syntax

end Fool
