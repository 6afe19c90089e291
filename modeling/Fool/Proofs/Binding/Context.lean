import Fool.Binding.Basic
import Fool.Proofs.Tree.Layout

/-!
# Lexical scoping

A `Context` is what surrounds a reference: the blocks it stands in, innermost first, each with the names declared in
it so far. A name means its first declaration in the innermost block that has one (`Context.lookup?`); where its
value lies is counted over the different names declared in the block before (`Block.offset`).

`Program.Region` gives every list of declarations with the expression behind it its context: that of the program,
of each function and of each method. `Program.Site` gives every expression its context.
-/

namespace Fool

mutual

/-- A type as it is recorded. -/
def Ty.checked : Ty → CheckedType
  | .int => .int
  | .bool => .bool
  | .object name => .object name
  | .arrow params ret => .arrow (Ty.checkedAll params) ret.checked

/-- Several types as they are recorded. -/
def Ty.checkedAll : List Ty → List CheckedType
  | [] => []
  | ty :: tys => ty.checked :: Ty.checkedAll tys

end

theorem Ty.checkedAll_eq_map (tys : List Ty) : Ty.checkedAll tys = tys.map Ty.checked := by
  induction tys with
  | nil => rfl
  | cons ty tys ih => rw [Ty.checkedAll, ih, List.map_cons]

/-! ## Declarations in blocks -/

/-- A name that is declared, as what and with which type. -/
structure Declared where
  name : Symbol
  kind : EntryKind
  ty : CheckedType

/-- The first declaration of each name. -/
def Declared.firsts : List Declared → List Declared
  | [] => []
  | d :: ds => d :: (firsts ds).filter fun d' => d'.name ≠ d.name

/-- A block and the declarations made in it so far, refused ones included. -/
structure Block where
  kind : ScopeKind
  declared : List Declared

namespace Block

/-- The place of the first field of a class, or of the first declaration of another block. -/
def firstPlace : ScopeKind → Int
  | .cls _ => -1
  | .global | .function => -2

/-- The place of the first method of a class, or of the first parameter of a function. -/
def firstSlot : ScopeKind → Int
  | .cls _ => 0
  | .global | .function => 1

/-- Where a declaration lies that is made behind those in `before`. -/
def offset (kind : ScopeKind) (before : List Declared) (d : Declared) : Int :=
  if d.kind.takesSlot then
    firstSlot kind + (Declared.firsts before).countP fun d' => d'.kind.takesSlot
  else
    firstPlace kind - (Declared.firsts before).countP fun d' => !d'.kind.takesSlot

/-- What a name means in a block at some depth: its first declaration. -/
def meaning? (b : Block) (depth : Nat) (name : Symbol) : Option Entry :=
  (b.declared.find? (·.name = name)).map fun d =>
    ⟨d.kind, depth, offset b.kind (b.declared.takeWhile (·.name ≠ name)) d, d.ty⟩

/-- One more declaration. -/
def declare (b : Block) (d : Declared) : Block := { b with declared := b.declared ++ [d] }

end Block

/-- The blocks around a place, innermost first. -/
abbrev Context := List Block

namespace Context

/-- How deep the place lies: how many functions and classes are around it. -/
def depth (Γ : Context) : Nat := Γ.length - 1

/-- What a name means: what it means in the innermost block that declares it. -/
def lookup? : Context → Symbol → Option Entry
  | [], _ => none
  | b :: Γ, name => (b.meaning? Γ.length name).or (lookup? Γ name)

/-- Declarations in the innermost block. -/
def declareAll : Context → List Declared → Context
  | [], _ => []
  | b :: Γ, ds => { b with declared := b.declared ++ ds } :: Γ

@[simp] theorem declareAll_nil (Γ : Context) : Γ.declareAll [] = Γ := by
  cases Γ <;> simp [declareAll]

theorem declareAll_append (Γ : Context) (ds ds' : List Declared) :
    Γ.declareAll (ds ++ ds') = (Γ.declareAll ds).declareAll ds' := by
  cases Γ <;> simp [declareAll]

@[simp] theorem length_declareAll (Γ : Context) (ds : List Declared) : (Γ.declareAll ds).length = Γ.length := by
  cases Γ <;> simp [declareAll]

@[simp] theorem depth_declareAll (Γ : Context) (ds : List Declared) : (Γ.declareAll ds).depth = Γ.depth := by
  simp [depth]

end Context

/-! ## What is declared -/

/-- A function or a method as a declared name. -/
def Function.declared (f : Function) (kind : EntryKind) : Declared := ⟨f.name, kind, f.arrowType.checked⟩

/-- Parameters or fields as declared names. -/
def Declared.members (kind : EntryKind) (xs : List TypedName) : List Declared :=
  xs.map fun x => ⟨x.name, kind, x.ty.checked⟩

/-- The block of a function before its local declarations. -/
def Function.block (f : Function) : Block := ⟨.function, Declared.members .param f.params⟩

/-- The types of the members of a class. -/
def Class.shape (c : Class) : ClassShape :=
  ⟨c.name, c.fields.map fun x => x.ty.checked, c.methods.map fun m => m.arrowType.checked⟩

/-- A class as a declared name. -/
def Class.declared (c : Class) : Declared := ⟨c.name, .cls, c.shape.type⟩

/-- The block of a class with all its fields and some of its methods. -/
def Class.block (c : Class) (methods : List Function) : Block :=
  ⟨.cls c.name, Declared.members .field c.fields ++ methods.map (·.declared .method)⟩

@[simp] theorem Class.block_nil (c : Class) : c.block [] = ⟨.cls c.name, Declared.members .field c.fields⟩ := by
  simp [Class.block]

/-- A method more. -/
theorem Class.block_append (c : Class) (ms : List Function) (m : Function) :
    c.block (ms ++ [m]) = (c.block ms).declare (m.declared .method) := by
  simp [Class.block, Block.declare]

/-- What a declaration declares at some depth. A class that is not global declares nothing. -/
def Arena.declares (a : Arena) (depth : Nat) (d : DeclRef) : List Declared :=
  match a.decl? d with
  | some (.varDecl v) => [⟨v.name, .var, v.ty.checked⟩]
  | some (.funDecl f) => [f.declared .func]
  | some (.classDecl c) => if depth = 0 then [c.declared] else []
  | none => []

theorem Arena.declares_var {a : Arena} {d : DeclRef} {v : Variable} (h : a.decl? d = some (.varDecl v)) (depth : Nat) :
    a.declares depth d = [⟨v.name, .var, v.ty.checked⟩] := by
  rw [declares, h]

theorem Arena.declares_fun {a : Arena} {d : DeclRef} {f : Function} (h : a.decl? d = some (.funDecl f)) (depth : Nat) :
    a.declares depth d = [f.declared .func] := by
  rw [declares, h]

theorem Arena.declares_class {a : Arena} {d : DeclRef} {c : Class} (h : a.decl? d = some (.classDecl c)) (depth : Nat) :
    a.declares depth d = if depth = 0 then [c.declared] else [] := by
  rw [declares, h]

/-- The context behind some declarations. -/
def Context.bind (Γ : Context) (a : Arena) (ds : List DeclRef) : Context :=
  Γ.declareAll (ds.flatMap (a.declares Γ.depth))

/-! ## The context of every expression -/

namespace Program

variable (p : Program)

/-- **Declarations with the expression behind them, and their context.** The names of a function, a method and a class
are declared in their own bodies, those of later declarations are not; a class is read at the outermost level only. -/
inductive Region : Context → List DeclRef → ExprRef → Prop
  | main : Region [⟨.global, []⟩] p.declarations p.body
  | function {Γ : Context} {ds ds' : List DeclRef} {d : DeclRef} {body : ExprRef} {f : Function} :
      Region Γ (ds ++ d :: ds') body → p.arena.decl? d = some (.funDecl f) →
      Region (f.block :: (Γ.bind p.arena ds).declareAll [f.declared .func]) f.locals f.body
  | method {Γ : Context} {ds ds' : List DeclRef} {d : DeclRef} {body : ExprRef} {c : Class} {ms ms' : List Function}
      {m : Function} :
      Region Γ (ds ++ d :: ds') body → p.arena.decl? d = some (.classDecl c) → Γ.depth = 0 →
      c.methods = ms ++ m :: ms' →
      Region (m.block :: c.block (ms ++ [m]) :: (Γ.bind p.arena ds).declareAll [c.declared]) m.locals m.body

/-- An expression and its context. The name of a variable is not declared in its initial value. -/
inductive Site : Context → ExprRef → Prop
  | body {Γ : Context} {ds : List DeclRef} {body e : ExprRef} : p.Region Γ ds body → e ∈ p.arena.walk body →
      Site (Γ.bind p.arena ds) e
  | init {Γ : Context} {ds ds' : List DeclRef} {d : DeclRef} {body e : ExprRef} {v : Variable} :
      p.Region Γ (ds ++ d :: ds') body → p.arena.decl? d = some (.varDecl v) → e ∈ p.arena.walk v.init →
      Site (Γ.bind p.arena ds) e

end Program

/-- The whole expressions of a declaration: the initial value of a variable, the body of a function or a method, and
those of local declarations. -/
inductive Arena.WholeOf (a : Arena) : DeclRef → ExprRef → Prop
  | init {d : DeclRef} {v : Variable} : a.decl? d = some (.varDecl v) → WholeOf a d v.init
  | body {d : DeclRef} {f : Function} : a.decl? d = some (.funDecl f) → WholeOf a d f.body
  | inner {d d' : DeclRef} {f : Function} {w : ExprRef} : a.decl? d = some (.funDecl f) → d' ∈ f.locals →
      WholeOf a d' w → WholeOf a d w
  | methodBody {d : DeclRef} {c : Class} {m : Function} : a.decl? d = some (.classDecl c) → m ∈ c.methods →
      WholeOf a d m.body
  | methodInner {d d' : DeclRef} {c : Class} {m : Function} {w : ExprRef} : a.decl? d = some (.classDecl c) →
      m ∈ c.methods → d' ∈ m.locals → WholeOf a d' w → WholeOf a d w

namespace Arena

variable {a : Arena} {d : DeclRef} {w : ExprRef}

theorem wholeOf_var {v : Variable} (hx : a.decl? d = some (.varDecl v)) : a.WholeOf d w ↔ w = v.init := by
  constructor
  · intro h
    cases h with
    | init hy => cases hx.symm.trans hy; rfl
    | body hy => cases hx.symm.trans hy
    | inner hy _ _ => cases hx.symm.trans hy
    | methodBody hy _ => cases hx.symm.trans hy
    | methodInner hy _ _ _ => cases hx.symm.trans hy
  · rintro rfl
    exact .init hx

theorem wholeOf_fun {f : Function} (hx : a.decl? d = some (.funDecl f)) :
    a.WholeOf d w ↔ (∃ d' ∈ f.locals, a.WholeOf d' w) ∨ w = f.body := by
  constructor
  · intro h
    cases h with
    | init hy => cases hx.symm.trans hy
    | body hy => cases hx.symm.trans hy; exact Or.inr rfl
    | inner hy hd hw => cases hx.symm.trans hy; exact Or.inl ⟨_, hd, hw⟩
    | methodBody hy _ => cases hx.symm.trans hy
    | methodInner hy _ _ _ => cases hx.symm.trans hy
  · rintro (⟨d', hd, hw⟩ | rfl)
    · exact .inner hx hd hw
    · exact .body hx

theorem wholeOf_class {c : Class} (hx : a.decl? d = some (.classDecl c)) :
    a.WholeOf d w ↔ ∃ m ∈ c.methods, (∃ d' ∈ m.locals, a.WholeOf d' w) ∨ w = m.body := by
  constructor
  · intro h
    cases h with
    | init hy => cases hx.symm.trans hy
    | body hy => cases hx.symm.trans hy
    | inner hy _ _ => cases hx.symm.trans hy
    | methodBody hy hm => cases hx.symm.trans hy; exact ⟨_, hm, Or.inr rfl⟩
    | methodInner hy hm hd hw => cases hx.symm.trans hy; exact ⟨_, hm, Or.inl ⟨_, hd, hw⟩⟩
  · rintro ⟨m, hm, ⟨d', hd, hw⟩ | rfl⟩
    · exact .methodInner hx hm hd hw
    · exact .methodBody hx hm

end Arena

/-- The whole expressions of a program. -/
def Program.Whole (p : Program) (w : ExprRef) : Prop := w = p.body ∨ ∃ d ∈ p.declarations, p.arena.WholeOf d w

/-- An expression inside a class that is not declared at the outermost level. -/
def Program.Misplaced (p : Program) (e : ExprRef) : Prop :=
  ∃ (Γ : Context) (ds : List DeclRef) (body : ExprRef) (d : DeclRef) (c : Class) (w : ExprRef),
    p.Region Γ ds body ∧ d ∈ ds ∧ p.arena.decl? d = some (.classDecl c) ∧ Γ.depth ≠ 0 ∧ p.arena.WholeOf d w ∧
      e ∈ p.arena.walk w

end Fool
