import Fool.Proofs.Binding.Lexical

/-!
# What is wrong with the names of a program

`Program.Fault` says, place by place, which faults the names of a program have: a name declared twice in a block, a
type or a `new` that names no class, a class declared inside a function, and the four ways in which an expression can
use a name wrongly (`Program.Misuse`). A `Spot` is a place that can have one fault: an expression, a declared name, or
a class named in a type. `Program.Region` and `Program.Site` give the spots their contexts, which leave the inside of
a misplaced class out.
-/

namespace Fool

/-! ## Spots -/

/-- What is given a name: a declaration, a field or a method of the class that it declares, or a parameter of the
function, or of a method of the class, that it declares. -/
inductive Named where
  | decl (d : DeclRef)
  | field (d : DeclRef) (i : Nat)
  | method (d : DeclRef) (i : Nat)
  | param (d : DeclRef) (method : Option Nat) (i : Nat)

/-- The declaration that the name belongs to. -/
def Named.owner : Named → DeclRef
  | decl d | field d _ | method d _ | param d _ _ => d

/-- A place that can have one fault. -/
inductive Spot where
  /-- An expression that refers to a declaration. -/
  | reference (e : ExprRef)
  /-- A declared name. -/
  | name (x : Named)
  /-- A class in the type of what is named: the one with this number. -/
  | mention (x : Named) (i : Nat)

/-! ## Classes in a context -/

/-- The first declaration of the name in the block is of the kind. -/
def Block.Declares (b : Block) (name : Symbol) (kind : EntryKind) : Prop :=
  ∃ before d after, b.declared = before ++ d :: after ∧ (∀ d' ∈ before, d'.name ≠ name) ∧ d.name = name ∧ d.kind = kind

namespace Context

variable (Γ : Context) (name : Symbol)

/-- The name is that of a class in the outermost block. -/
def GlobalClass : Prop := ∃ g ∈ Γ.getLast?, g.Declares name .cls

/-- The innermost block of a class of this name. -/
def openClass? : Option Block := Γ.find? (·.kind = .cls name)

/-- The name is that of a class which has been declared, or whose declaration is around. -/
def KnowsClass : Prop := Γ.GlobalClass name ∨ (Γ.openClass? name).isSome

end Context

/-- The first of the declarations that has the name declares a class. -/
def Arena.FirstClass (a : Arena) (ds : List DeclRef) (name : Symbol) (c : Class) : Prop :=
  ∃ before d after, ds = before ++ d :: after ∧ (∀ d' ∈ before, ∀ x, a.decl? d' = some x → x.name ≠ name) ∧
    a.decl? d = some (.classDecl c) ∧ c.name = name

namespace Program

variable (p : Program) (Γ : Context)

/-- The global declarations that have been read. Each of them has declared one name in the outermost block; a place
further in belongs to the last of them, which has not been read to its end. -/
def passed : List DeclRef :=
  p.declarations.take (if Γ.depth = 0 then Γ.globals.length else Γ.globals.length - 1)

/-- The class was the first to be declared with this name, and has been read. -/
def ReadClass (name : Symbol) (c : Class) : Prop := p.arena.FirstClass (p.passed Γ) name c

/-- A class has a method: the one that has been read, or else, so far, the one that is being read. -/
def HasMethod (cls name : Symbol) : Prop :=
  (∃ c, p.ReadClass Γ cls c ∧ (c.block c.methods).Declares name .method) ∨
    (∀ c, p.ReadClass Γ cls c → ¬(c.block c.methods).Has name) ∧ ∃ b ∈ Γ.openClass? cls, b.Declares name .method

end Program

/-! ## Faults -/

/-- The name that an expression needs a declaration of. -/
def Expr.subject? : Expr → Option Symbol
  | name s | call s _ | methodCall s _ _ => some s
  | _ => none

/-- What is wrong with the use of a name in an expression. -/
inductive Program.Misuse (p : Program) (names : Names) (Γ : Context) : Expr → BindError.Cause → Prop
  | unresolved {x : Expr} {name : Symbol} : x.subject? = some name → (∀ b ∈ Γ, ¬b.Has name) →
      Misuse p names Γ x (.unresolvedIdentifier (names.text name))
  | localFunctionValue {name : Symbol} {entry : Entry} : Γ.Means name entry →
      entry.kind = .func ∨ entry.kind = .method → 0 < entry.depth →
      Misuse p names Γ (.name name) (.localFunctionValue (names.text name))
  | notAnObject {receiver method : Symbol} {args : List ExprRef} {entry : Entry} : Γ.Means receiver entry →
      (∀ cls, entry.ty ≠ .object cls) →
      Misuse p names Γ (.methodCall receiver method args) (.notAnObject (names.text receiver))
  | unknownMethod {receiver method cls : Symbol} {args : List ExprRef} {entry : Entry} : Γ.Means receiver entry →
      entry.ty = .object cls → Γ.KnowsClass cls → ¬p.HasMethod Γ cls method →
      Misuse p names Γ (.methodCall receiver method args) (.unknownMethod (names.text cls) (names.text method))
  | unknownClass {cls : Symbol} {args : List ExprRef} : ¬Γ.GlobalClass cls →
      Misuse p names Γ (.new cls args) (.unknownClass (names.text cls))

namespace Arena

variable (a : Arena) (names : Names) (Γ : Context) (d : DeclRef)

/-- The names that a declaration declares: each with the context that it is added to, and its place. -/
inductive Naming : Named → Context → Declared → Option Location → Prop
  | var {v : Variable} : a.decl? d = some (.varDecl v) →
      Naming (.decl d) Γ ⟨v.name, .var, v.ty.checked⟩ v.location
  | function {f : Function} : a.decl? d = some (.funDecl f) → Naming (.decl d) Γ (f.declared .func) f.location
  | param {f : Function} {xs ys : List TypedName} {x : TypedName} : a.decl? d = some (.funDecl f) →
      f.params = xs ++ x :: ys →
      Naming (.param d none xs.length) (⟨.function, Declared.members .param xs⟩ :: Γ.declareAll [f.declared .func])
        ⟨x.name, .param, x.ty.checked⟩ x.location
  | cls {c : Class} : a.decl? d = some (.classDecl c) → Γ.depth = 0 → Naming (.decl d) Γ c.declared c.location
  | field {c : Class} {xs ys : List TypedName} {x : TypedName} : a.decl? d = some (.classDecl c) → Γ.depth = 0 →
      c.fields = xs ++ x :: ys →
      Naming (.field d xs.length) (⟨.cls c.name, Declared.members .field xs⟩ :: Γ.declareAll [c.declared])
        ⟨x.name, .field, x.ty.checked⟩ x.location
  | method {c : Class} {ms ms' : List Function} {m : Function} : a.decl? d = some (.classDecl c) → Γ.depth = 0 →
      c.methods = ms ++ m :: ms' →
      Naming (.method d ms.length) (c.block ms :: Γ.declareAll [c.declared]) (m.declared .method) m.location
  | methodParam {c : Class} {ms ms' : List Function} {m : Function} {xs ys : List TypedName} {x : TypedName} :
      a.decl? d = some (.classDecl c) → Γ.depth = 0 → c.methods = ms ++ m :: ms' → m.params = xs ++ x :: ys →
      Naming (.param d (some ms.length) xs.length)
        (⟨.function, Declared.members .param xs⟩ :: c.block (ms ++ [m]) :: Γ.declareAll [c.declared])
        ⟨x.name, .param, x.ty.checked⟩ x.location

/-- The types of what a declaration declares: each with the context in which its classes are looked up. The members of
a class are looked up inside it, before it is declared. -/
inductive Typing : Named → Context → CheckedType → Option Location → Prop
  | var {v : Variable} : a.decl? d = some (.varDecl v) → Typing (.decl d) Γ v.ty.checked v.location
  | function {f : Function} : a.decl? d = some (.funDecl f) → Typing (.decl d) Γ f.arrowType.checked f.location
  | field {c : Class} {xs ys : List TypedName} {x : TypedName} : a.decl? d = some (.classDecl c) → Γ.depth = 0 →
      c.fields = xs ++ x :: ys → Typing (.field d xs.length) (⟨.cls c.name, []⟩ :: Γ) x.ty.checked x.location
  | method {c : Class} {ms ms' : List Function} {m : Function} : a.decl? d = some (.classDecl c) → Γ.depth = 0 →
      c.methods = ms ++ m :: ms' →
      Typing (.method d ms.length) (⟨.cls c.name, []⟩ :: Γ) m.arrowType.checked m.location

/-- What is wrong with the names and the types of a declaration. -/
inductive Misdeclared : Spot → BindError → Prop
  | duplicate {x : Named} {Γ' : Context} {D : Declared} {place : Option Location} : a.Naming Γ d x Γ' D place →
      Γ'.Has D.name → Misdeclared (.name x) ⟨.duplicateDeclaration (names.text D.name), place⟩
  | unknownClass {x : Named} {Γ' : Context} {ty : CheckedType} {place : Option Location} {i : Nat} {cls : Symbol} :
      a.Typing Γ d x Γ' ty place → ty.classes[i]? = some cls → ¬Γ'.KnowsClass cls →
      Misdeclared (.mention x i) ⟨.unknownClass (names.text cls), place⟩
  | misplaced {c : Class} : a.decl? d = some (.classDecl c) → Γ.depth ≠ 0 →
      Misdeclared (.name (.decl d)) ⟨.misplacedClass (names.text c.name), c.location⟩

end Arena

/-- **The faults of a program,** each with the spot that has it. -/
inductive Program.Fault (p : Program) (names : Names) : Spot → BindError → Prop
  | reference {Γ : Context} {e : ExprRef} {x : Expr} {cause : BindError.Cause} : p.Site Γ e →
      p.arena.expr? e = some x → p.Misuse names Γ x cause → Fault p names (.reference e) ⟨cause, p.arena.location? e⟩
  | declaration {Γ : Context} {ds ds' : List DeclRef} {d : DeclRef} {body : ExprRef} {s : Spot} {err : BindError} :
      p.Region Γ (ds ++ d :: ds') body → p.arena.Misdeclared names (Γ.bind p.arena ds) d s err → Fault p names s err

end Fool
