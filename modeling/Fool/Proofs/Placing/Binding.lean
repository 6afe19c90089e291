import Fool.Binding.Basic
import Fool.Proofs.Placing.Tree

/-!
# Binding a program without places

Binding copies places into the faults it notes and does nothing else with them. So each step on a tree without places does
what the step on the tree does, and notes the same faults without places (`Displaced`): a program without places has the
resolutions and the classes of the program (`bind_unplaced`).
-/

namespace Fool

/-- The fault without its place. -/
def BindError.unplaced (e : BindError) : BindError := { e with location := none }

/-- The state of binding without places. -/
def Binder.unplaced (b : Binder) : Binder := { b with errors := b.errors.map BindError.unplaced }

/-- The result of binding without places. -/
def Bindings.unplaced (b : Bindings) : Bindings := { b with errors := b.errors.map BindError.unplaced }

namespace Binder

variable {α β γ : Type}

/-- Without places the first step does what the second does with them. -/
def Displaced (m' m : BindM α) : Prop := ∀ b : Binder, m' b.unplaced = ((m b).1, (m b).2.unplaced)

namespace Displaced

theorem pure (a : α) : Displaced (Pure.pure a) (Pure.pure a) := fun _ => rfl

theorem bind {m' m : BindM α} {k' k : α → BindM β} (hm : Displaced m' m) (hk : ∀ a, Displaced (k' a) (k a)) :
    Displaced (m' >>= k') (m >>= k) := fun b => by
  change k' (m' b.unplaced).1 (m' b.unplaced).2 = _
  rw [hm b]
  exact hk _ _

theorem modify {g' g : Binder → Binder} (h : ∀ b, g' b.unplaced = (g b).unplaced) :
    Displaced (modify g') (modify g) := fun b => congrArg (Prod.mk ()) (h b)

/-- A step that goes on from the state it finds. -/
theorem get {k' k : Binder → BindM β} (h : ∀ b, Displaced (k' b.unplaced) (k b)) :
    Displaced (MonadState.get >>= k') (MonadState.get >>= k) := fun b => h b b

theorem ite {c : Prop} [Decidable c] {m' m n' n : BindM α} (hm : Displaced m' m) (hn : Displaced n' n) :
    Displaced (if c then m' else n') (if c then m else n) := by
  split
  · exact hm
  · exact hn

theorem forM {δ : Type} {g : γ → δ} {step' : δ → BindM Unit} {step : γ → BindM Unit} {xs : List γ}
    (h : ∀ x, Displaced (step' (g x)) (step x)) : Displaced ((xs.map g).forM step') (xs.forM step) := by
  induction xs with
  | nil => exact .pure ()
  | cons x xs ih => exact (h x).bind fun _ => ih

theorem each {step' step : γ → BindM Unit} (xs : List γ) (h : ∀ x, Displaced (step' x) (step x)) :
    Displaced (xs.forM step') (xs.forM step) := by
  have hmap : Displaced ((xs.map id).forM step') (xs.forM step) := forM h
  rwa [List.map_id] at hmap

theorem mapM {δ : Type} {g : γ → δ} {step' : δ → BindM α} {step : γ → BindM α} {xs : List γ}
    (h : ∀ x, Displaced (step' (g x)) (step x)) : Displaced ((xs.map g).mapM step') (xs.mapM step) := by
  induction xs with
  | nil => exact .pure []
  | cons x xs ih =>
    simp only [List.map_cons, List.mapM_cons]
    exact (h x).bind fun _ => ih.bind fun _ => .pure _

end Displaced

theorem displaced_report (cause : BindError.Cause) (place : Option Location) :
    Displaced (report cause none) (report cause place) := .modify fun b => by simp [unplaced, BindError.unplaced]

theorem displaced_resolve (e : ExprRef) (x : Resolution) : Displaced (resolve e x) (resolve e x) := .modify fun _ => rfl

theorem displaced_inScope (scope : Scope) {body' body : BindM Unit} (h : Displaced body' body) :
    Displaced (inScope scope body') (inScope scope body) := by
  refine Displaced.bind (.modify fun _ => rfl) fun _ => h.bind fun _ => .get fun b => ?_
  exact Displaced.bind (.modify fun _ => rfl) fun _ => .pure _

variable {arena : Arena} {names : Names}

mutual

theorem displaced_checkType (place : Option Location) :
    ∀ ty : Ty, Displaced (checkType names none ty) (checkType names place ty)
  | .int => .pure _
  | .bool => .pure _
  | .object name => by
    refine .get fun b => .ite ?_ (.pure _)
    exact (displaced_report _ place).bind fun _ => .pure _
  | .arrow params ret =>
    (displaced_checkTypes place params).bind fun _ => (displaced_checkType place ret).bind fun _ => .pure _

theorem displaced_checkTypes (place : Option Location) :
    ∀ tys : List Ty, Displaced (checkTypes names none tys) (checkTypes names place tys)
  | [] => .pure _
  | ty :: tys => (displaced_checkType place ty).bind fun _ => (displaced_checkTypes place tys).bind fun _ => .pure _

end

theorem displaced_declare (name : Symbol) (ty : CheckedType) (kind : EntryKind) (place : Option Location) :
    Displaced (declare names name ty kind none) (declare names name ty kind place) := by
  refine .get fun b => ?_
  have hscopes : b.unplaced.scopes = b.scopes := rfl
  simp only [hscopes]
  cases b.scopes.declare name b.scopes.depth ty kind with
  | none => exact (displaced_report _ place).bind fun _ => .pure _
  | some answer => exact fun _ => rfl

/-! ## Expressions -/

theorem displaced_resolveName (e : ExprRef) (name : Symbol) :
    Displaced (resolveName arena.unplaced names e name) (resolveName arena names e name) := by
  refine .get fun b => ?_
  simp only [Arena.location?_unplaced, unplaced]
  cases b.scopes.lookup? name with
  | none => exact (displaced_report _ _).bind fun _ => .pure _
  | some entry => exact (displaced_resolve e _).bind fun _ => .pure _

theorem displaced_resolveValue (e : ExprRef) (name : Symbol) :
    Displaced (resolveValue arena.unplaced names e name) (resolveValue arena names e name) := by
  refine (displaced_resolveName e name).bind fun answer => ?_
  cases answer with
  | none => exact .pure _
  | some x =>
    simp only [Arena.location?_unplaced]
    exact .ite (displaced_report _ _) (.pure _)

theorem displaced_resolveMethod (e : ExprRef) (receiver method : Symbol) :
    Displaced (resolveMethod arena.unplaced names e receiver method) (resolveMethod arena names e receiver method) := by
  refine .get fun b => ?_
  have hknows : ∀ cls, b.unplaced.knowsClass cls = b.knowsClass cls := fun _ => rfl
  have hmember : ∀ cls, b.unplaced.member? cls method = b.member? cls method := fun _ => rfl
  have hscopes : b.unplaced.scopes = b.scopes := rfl
  simp only [Arena.location?_unplaced, hknows, hmember, hscopes]
  cases b.scopes.lookup? receiver with
  | none => exact displaced_report _ _
  | some entry =>
    dsimp only
    cases entry.ty.className? with
    | none => exact displaced_report _ _
    | some cls =>
      refine .ite ?_ (.pure _)
      cases (b.member? cls method).filter (·.kind = .method) with
      | none => exact displaced_report _ _
      | some m => exact displaced_resolve e _

theorem displaced_resolveNew (e : ExprRef) (cls : Symbol) :
    Displaced (resolveNew arena.unplaced names e cls) (resolveNew arena names e cls) := by
  refine .get fun b => ?_
  simp only [Arena.location?_unplaced, unplaced]
  cases b.scopes.globalClass? cls with
  | none => exact displaced_report _ _
  | some entry => exact displaced_resolve e _

theorem displaced_expr (n : Nat) (e : ExprRef) : Displaced (expr arena.unplaced names n e) (expr arena names n e) := by
  induction n generalizing e with
  | zero =>
    simp only [expr, Arena.location?_unplaced]
    exact displaced_report _ _
  | succ n ih =>
    simp only [expr, Arena.expr?_unplaced, Arena.leftSpine_unplaced]
    cases arena.expr? e with
    | none => exact .pure _
    | some x =>
      cases x with
      | int | bool | null => exact .pure _
      | binary => exact (ih _).bind fun _ => .each _ fun x => ih x.2
      | not operand | print operand => exact ih operand
      | ifElse condition onTrue onFalse => exact (ih condition).bind fun _ => (ih onTrue).bind fun _ => ih onFalse
      | name x => exact displaced_resolveValue e x
      | call x args => exact (displaced_resolveName e x).bind fun _ => .each args ih
      | methodCall x m args => exact (displaced_resolveMethod e x m).bind fun _ => .each args ih
      | new x args => exact (displaced_resolveNew e x).bind fun _ => .each args ih

/-! ## Declarations -/

theorem displaced_declareAll (kind : EntryKind) (members : List TypedName) (types : List CheckedType) :
    Displaced (declareAll names kind (members.map TypedName.unplaced) types) (declareAll names kind members types) := by
  unfold declareAll
  rw [List.zip_map_left]
  exact .forM fun x => (displaced_declare x.1.name x.2 kind x.1.location).bind fun _ => .pure _

theorem displaced_function {bindLocal' bindLocal : DeclRef → BindM Unit}
    (h : ∀ d, Displaced (bindLocal' d) (bindLocal d)) (f : Function) (ty : CheckedType) (kind : EntryKind) :
    Displaced (function arena.unplaced names bindLocal' f.unplaced ty kind)
      (function arena names bindLocal f ty kind) := by
  refine (displaced_declare f.name ty kind f.location).bind fun _ => ?_
  refine (displaced_inScope _ ?_).bind fun _ => .pure _
  refine (displaced_declareAll .param f.params (paramTypes ty)).bind fun _ => ?_
  exact (Displaced.each f.locals h).bind fun _ => displaced_expr maxNesting f.body

theorem displaced_classShape (c : Class) : Displaced (classShape names c.unplaced) (classShape names c) := by
  have hfields : Displaced ((c.fields.map TypedName.unplaced).mapM fun m => checkType names m.location m.ty)
      (c.fields.mapM fun m => checkType names m.location m.ty) := .mapM fun m => displaced_checkType m.location m.ty
  refine hfields.bind fun fields => ?_
  have hmethods : Displaced ((c.methods.map Function.unplaced).mapM fun m => checkType names m.location m.arrowType)
      (c.methods.mapM fun m => checkType names m.location m.arrowType) := .mapM fun m => by
    rw [Function.arrowType_unplaced]
    exact displaced_checkType m.location m.arrowType
  exact hmethods.bind fun methods => .pure _

theorem displaced_classBody {bindLocal' bindLocal : DeclRef → BindM Unit}
    (h : ∀ d, Displaced (bindLocal' d) (bindLocal d)) (c : Class) :
    Displaced (classBody arena.unplaced names bindLocal' c.unplaced) (classBody arena names bindLocal c) := by
  refine Displaced.bind (.modify fun _ => rfl) fun _ => (displaced_classShape c).bind fun shape => ?_
  refine (displaced_declare c.name shape.type .cls c.location).bind fun declared => ?_
  refine (displaced_inScope _ ?_).bind fun scope => Displaced.bind (.modify fun _ => rfl) fun _ => ?_
  · refine (displaced_declareAll .field c.fields shape.fields).bind fun _ => ?_
    simp only [Class.unplaced, List.zip_map_left]
    exact .forM fun x => displaced_function h x.1 x.2 .method
  · cases declared with
    | false => exact .pure _
    | true =>
      cases scope with
      | none => exact .pure _
      | some scope => exact .modify fun _ => rfl

theorem displaced_decl (n : Nat) (d : DeclRef) : Displaced (decl arena.unplaced names n d) (decl arena names n d) := by
  induction n generalizing d with
  | zero => exact .pure _
  | succ n ih =>
    simp only [decl, Arena.decl?_unplaced]
    cases arena.decl? d with
    | none => exact .pure _
    | some x =>
      cases x with
      | varDecl v =>
        refine (displaced_expr maxNesting v.init).bind fun _ => (displaced_checkType v.location v.ty).bind fun ty => ?_
        exact (displaced_declare v.name ty .var v.location).bind fun _ => .pure _
      | funDecl f =>
        simp only [Option.map_some, Decl.unplaced, Function.arrowType_unplaced]
        exact (displaced_checkType f.location f.arrowType).bind fun ty => displaced_function ih f ty .func
      | classDecl c => exact .get fun b => .ite (displaced_classBody ih c) (displaced_report _ c.location)

end Binder

/-- **Without places a program is bound as it is with them**: its faults have no places, and that is all. -/
theorem Program.bind_unplaced (p : Program) (names : Names) : p.unplaced.bind names = (p.bind names).unplaced := by
  have hglobals : Binder.Displaced (p.unplaced.bindGlobals names) (p.bindGlobals names) := by
    refine (Binder.displaced_inScope (.empty .global) ?_).bind fun _ => .pure _
    rw [show p.unplaced.arena.decls.size = p.arena.decls.size from p.arena.size_decls_unplaced]
    exact (Binder.Displaced.each p.declarations (Binder.displaced_decl _)).bind fun _ =>
      Binder.displaced_expr _ p.body
  have hstart : (Binder.start p.arena.nodes.size).unplaced = .start p.unplaced.arena.nodes.size := by
    simp [Binder.start, Binder.unplaced, unplaced]
  have hrun := hglobals (.start p.arena.nodes.size)
  rw [hstart] at hrun
  simp only [bind, hrun]
  rfl

end Fool
