import Fool.Scope.Entry

/-!
# What programs mean

A reference for the code that is generated: `Program.evaluate` takes a program to its value without a machine. Scoping
is static. An `Env` is what is visible at a place, innermost first; a function is called in the surroundings of its
declaration (`Env.find?` gives them together with the declaration), a method in those of its class, inside its object.

Values are not checked against types. Where something is used as what it is not, the program is `illFormed` and
nothing is said about it. The number is how deep expressions and calls may be nested; `outOfFuel` is no answer.
-/

namespace Fool

namespace Reference

mutual

/-- A value. A function as a value brings its surroundings; null is the number -1. -/
inductive Value where
  | int (v : Int64)
  | object (id : Nat)
  | func (f : Function) (outer : Env)
  | cls (c : Class)

/-- What is visible at a place. The values are those of variables and, in a `frame`, of parameters; in an object its
fields are visible, and of the methods of its class those that are listed. -/
inductive Env where
  | top
  | value (kind : EntryKind) (name : Symbol) (ty : Ty) (v : Value) (outer : Env)
  | func (f : Function) (outer : Env)
  | cls (c : Class) (outer : Env)
  | frame (outer : Env)
  | object (id : Nat) (c : Class) (methods : List Function) (outer : Env)

end

namespace Env

/-- The declaration of a name, with what is visible behind it. -/
def find? (name : Symbol) : Env → Option Env
  | top => none
  | value kind x ty v outer => if x = name then some (value kind x ty v outer) else find? name outer
  | func f outer => if f.name = name then some (func f outer) else find? name outer
  | cls c outer => if c.name = name then some (cls c outer) else find? name outer
  | frame outer => find? name outer
  | object id c methods outer =>
    if name ∈ c.fields.map (·.name) ∨ name ∈ methods.map (·.name) then some (object id c methods outer)
    else find? name outer

/-- The class with a name, with what is visible behind its declaration. -/
def class? (name : Symbol) : Env → Option (Class × Env)
  | top => none
  | value _ _ _ _ outer => class? name outer
  | func _ outer => class? name outer
  | cls c outer => if c.name = name then some (c, cls c outer) else class? name outer
  | frame outer => class? name outer
  | object _ _ _ outer => class? name outer

end Env

/-- An object: its class, the values of its fields, and what is visible in the class. -/
structure Object where
  cls : Class
  fields : List Value
  env : Env

/-- What there is besides values: the objects made so far, and the numbers printed so far. -/
structure World where
  objects : List Object
  output : List Int64

/-- Why there is no value. -/
inductive Stop where
  | divisionByZero
  | nullReceiver
  | illFormed
  | outOfFuel
deriving DecidableEq

/-- A step of evaluation. -/
abbrev EvalM := EStateM Stop World

/-! ## Operators -/

/-- A value as a number. -/
def number : Value → EvalM Int64
  | .int v => return v
  | _ => throw .illFormed

/-- A truth value as a number. -/
def truth (b : Bool) : Value := .int (if b then 1 else 0)

/-- Whether two values are the same: numbers, objects, or an object and null. -/
def same : Value → Value → EvalM Bool
  | .int v, .int v' => return v = v'
  | .object i, .object j => return i = j
  | .object _, .int v | .int v, .object _ => if v = -1 then return false else throw .illFormed
  | _, _ => throw .illFormed

/-- A function of two numbers, for values. -/
def onNumbers (left right : Value) (f : Int64 → Int64 → EvalM Value) : EvalM Value := do
  let x ← number left
  let y ← number right
  f x y

/-- What an operator makes of two values. -/
def operate (op : Operator) (left right : Value) : EvalM Value :=
  match op with
  | .add => onNumbers left right fun x y => return .int (x + y)
  | .sub => onNumbers left right fun x y => return .int (x - y)
  | .mul | .and => onNumbers left right fun x y => return .int (x * y)
  | .div => onNumbers left right fun x y => if y = 0 then throw .divisionByZero else return .int (x / y)
  | .equal => return truth (← same left right)
  | .lessEqual => onNumbers left right fun x y => return truth (x ≤ y)
  | .greaterEqual => onNumbers left right fun x y => return truth (y ≤ x)
  | .or => onNumbers left right fun x y => return truth (x = 1 || y = 1)

/-! ## Names -/

/-- Behind a value the evaluation goes on with it. -/
theorem bind_of_ok {α β : Type} {m : EvalM α} {f : α → EvalM β} {x : α} {w w' : World} (h : m w = .ok x w') :
    (m >>= f) w = f x w' := by
  show EStateM.bind m f w = _
  unfold EStateM.bind
  rw [h]

theorem get_bind_run {α : Type} (f : World → EvalM α) (w : World) : (get >>= f) w = f w w := rfl

/-- A field of an object, with its type. -/
def field (id : Nat) (c : Class) (name : Symbol) : EvalM (Ty × Value) := do
  let w ← get
  match w.objects[id]?.bind fun o => (c.fields.zip o.fields).find? fun q => q.1.name = name with
  | some (x, v) => return (x.ty, v)
  | none => throw .illFormed

/-- The value of a variable, a parameter or a field, with its type. -/
def held (env : Env) (name : Symbol) : EvalM (Ty × Value) :=
  match env.find? name with
  | some (.value _ _ ty v _) => return (ty, v)
  | some (.object id c _ _) => field id c name
  | _ => throw .illFormed

/-- The value of a name. -/
def nameValue (env : Env) (name : Symbol) : EvalM Value :=
  match env.find? name with
  | some (.func f outer) => return .func f outer
  | some (.cls c _) => return .cls c
  | _ => return (← held env name).2

/-- A method of a list, with those up to it. -/
def method? (methods : List Function) (name : Symbol) : Option (Function × List Function) :=
  (methods.find? (·.name = name)).map fun m => (m, methods.takeWhile (·.name ≠ name) ++ [m])

/-- What a call runs: a function, and the surroundings of its body. -/
def callee (env : Env) (name : Symbol) : EvalM (Function × Env) :=
  match env.find? name with
  | some (.func f outer) => return (f, .func f outer)
  | some (.object id c methods outer) =>
    match method? methods name with
    | some (m, upTo) => return (m, .object id c upTo outer)
    | none => asFunction
  | _ => asFunction
where
  /-- The function that a variable holds. -/
  asFunction : EvalM (Function × Env) := do
    match ← held env name with
    | (_, .func f outer) => return (f, .func f outer)
    | _ => throw .illFormed

/-- What the call of a method runs: the method of the class of the receiver, inside the receiver. -/
def methodCallee (env : Env) (receiver method : Symbol) : EvalM (Function × Env) := do
  match ← held env receiver with
  | (_, .int v) => if v = -1 then throw .nullReceiver else throw .illFormed
  | (.object name, .object id) =>
    let w ← get
    match w.objects[id]? with
    | none => throw .illFormed
    | some o =>
      match method? o.cls.methods method with
      | some (m, upTo) => if o.cls.name = name then return (m, .object id o.cls upTo o.env) else throw .illFormed
      | none => throw .illFormed
  | _ => throw .illFormed

/-- A new object. -/
def construct (env : Env) (name : Symbol) (values : List Value) : EvalM Value := do
  match env.class? name with
  | none => throw .illFormed
  | some (c, outer) =>
    if values.length = c.fields.length then
      let w ← get
      set (⟨w.objects ++ [⟨c, values, outer⟩], w.output⟩ : World)
      return .object w.objects.length
    else
      throw .illFormed

/-- A number that is printed. -/
def printed (v : Int64) : EvalM Unit := modify fun w => { w with output := w.output ++ [v] }

/-! ## Expressions -/

/-- The surroundings of a body in which parameters have values. -/
def bindParams (env : Env) : List (TypedName × Value) → Env
  | [] => env
  | (x, v) :: rest => bindParams (.value .param x.name x.ty v env) rest

section

variable (arena : Arena) (eval : Env → ExprRef → EvalM Value)

/-- What is visible behind a declaration. -/
def declare (env : Env) (d : DeclRef) : EvalM Env :=
  match arena.decl? d with
  | some (.varDecl v) => return .value .var v.name v.ty (← eval env v.init) env
  | some (.funDecl f) => return .func f env
  | some (.classDecl c) => return .cls c env
  | none => throw .illFormed

/-- Runs a function or a method whose surroundings are `env`. -/
def enter (f : Function) (env : Env) (args : List Value) : EvalM Value := do
  if args.length = f.params.length then
    let env ← f.locals.foldlM (declare arena eval) (bindParams (.frame env) (f.params.zip args))
    eval env f.body
  else
    throw .illFormed

end

/-- The value of an expression. -/
def expr (arena : Arena) : Nat → Env → ExprRef → EvalM Value
  | 0, _, _ => throw .outOfFuel
  | n + 1, env, e => do
    match arena.expr? e with
    | none => throw .illFormed
    | some (.int v) => return .int v
    | some (.bool b) => return truth b
    | some .null => return .int (-1)
    | some (.binary op left right) =>
      match op with
      | .or =>
        let x ← number (← expr arena n env left)
        if x = 1 then
          return truth true
        else
          return truth ((← number (← expr arena n env right)) = 1)
      | .greaterEqual =>
        let y ← expr arena n env right
        let x ← expr arena n env left
        operate .greaterEqual x y
      | op =>
        let x ← expr arena n env left
        let y ← expr arena n env right
        operate op x y
    | some (.not operand) => return truth ((← number (← expr arena n env operand)) = 0)
    | some (.ifElse condition onTrue onFalse) =>
      if (← number (← expr arena n env condition)) = 1 then
        expr arena n env onTrue
      else
        expr arena n env onFalse
    | some (.print operand) =>
      let v ← number (← expr arena n env operand)
      printed v
      return .int v
    | some (.name name) => nameValue env name
    | some (.call function args) =>
      let values ← args.reverse.mapM (expr arena n env)
      let (f, outer) ← callee env function
      enter arena (expr arena n) f outer values.reverse
    | some (.methodCall receiver method args) =>
      let values ← args.reverse.mapM (expr arena n env)
      let (f, outer) ← methodCallee env receiver method
      enter arena (expr arena n) f outer values.reverse
    | some (.new name args) =>
      let values ← args.mapM (expr arena n env)
      construct env name values

end Reference

open Reference in
/-- The value of a program, in which expressions and calls may be nested as deep as the number says. -/
def Program.evaluate (p : Program) (n : Nat) : EStateM.Result Stop World Value :=
  (do
    let env ← p.declarations.foldlM (declare p.arena (expr p.arena n)) .top
    expr p.arena n env p.body).run ⟨[], []⟩

end Fool
