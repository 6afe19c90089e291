import Fool.Binding.Basic
import Fool.Proofs.Renaming.Tree
import Mathlib.Logic.Function.Basic

/-!
# Binding a renamed program

Binding compares symbols and shows their names in messages, and does nothing else with them. So an injective renaming
that keeps the names commutes with it, scope by scope and step by step (`Parallel`): a renamed program has the renamed
resolutions and classes, and the same faults (`bind_rename`).
-/

namespace Fool

variable (f : Symbol → Symbol)

/-! ## What binding holds -/

/-- The entry with its symbols renamed. -/
def Entry.rename (e : Entry) : Entry := ⟨e.kind, e.depth, e.offset, e.ty.rename f⟩

/-- The resolution with its symbols renamed. -/
def Resolution.rename (r : Resolution) : Resolution := ⟨r.entry.rename f, r.callDepth, r.method.map (Entry.rename f)⟩

/-- The resolutions with their symbols renamed. -/
def Resolutions.rename (t : Resolutions) : Resolutions := ⟨t.cells.map (Option.map (Resolution.rename f))⟩

/-- The kind with its symbols renamed. -/
def ScopeKind.rename : ScopeKind → ScopeKind
  | .cls name => .cls (f name)
  | kind => kind

/-- The scope with its symbols renamed. -/
def Scope.rename (s : Scope) : Scope :=
  ⟨s.kind.rename f, s.entries.map (Prod.map f (Entry.rename f)), s.nextDeclaration, s.nextSlot⟩

/-- The scopes with their symbols renamed. -/
def Scopes.rename (s : Scopes) : Scopes := ⟨s.stack.map (Scope.rename f)⟩

/-- The shape with its symbols renamed. -/
def ClassShape.rename (s : ClassShape) : ClassShape :=
  ⟨f s.name, s.fields.map (CheckedType.rename f), s.methods.map (CheckedType.rename f)⟩

/-- The class with its symbols renamed. -/
def ClassInfo.rename (c : ClassInfo) : ClassInfo := ⟨c.shape.rename f, c.scope.rename f⟩

/-- The classes with their symbols renamed. -/
def ClassTable.rename (t : ClassTable) : ClassTable := ⟨t.entries.map (Prod.map f (ClassInfo.rename f))⟩

/-- The state of binding with its symbols renamed. -/
def Binder.rename (b : Binder) : Binder :=
  ⟨b.scopes.rename f, b.classes.rename f, b.resolutions.rename f, b.errors, b.currentClass.map f⟩

/-- The result of binding with its symbols renamed. -/
def Bindings.rename (b : Bindings) : Bindings := ⟨b.resolutions.rename f, b.classes.rename f, b.errors⟩

@[simp] theorem ClassShape.type_rename (s : ClassShape) : (s.rename f).type = s.type.rename f := by
  simp [ClassShape.type, ClassShape.rename, CheckedType.rename]

@[simp] theorem Resolutions.get?_rename (t : Resolutions) (e : ExprRef) :
    (t.rename f).get? e = (t.get? e).map (Resolution.rename f) := by
  simp only [Resolutions.get?, Resolutions.rename, Array.getElem?_map]
  cases t.cells[e.index]? with
  | none => rfl
  | some cell => cases cell <;> rfl

@[simp] theorem Resolutions.set_rename (t : Resolutions) (e : ExprRef) (r : Resolution) :
    (t.rename f).set e (r.rename f) = (t.set e r).rename f := by
  simp [Resolutions.set, Resolutions.rename, Array.map_setIfInBounds]

@[simp] theorem Scope.empty_rename (kind : ScopeKind) : Scope.empty (kind.rename f) = (Scope.empty kind).rename f := by
  cases kind <;> rfl

@[simp] theorem Scope.nextOffset_rename (s : Scope) (kind : EntryKind) :
    (s.rename f).nextOffset kind = s.nextOffset kind := rfl

@[simp] theorem Scopes.depth_rename (s : Scopes) : (s.rename f).depth = s.depth := by
  simp [Scopes.depth, Scopes.rename]

@[simp] theorem Scopes.push_rename (s : Scopes) (scope : Scope) :
    (s.rename f).push (scope.rename f) = (s.push scope).rename f := rfl

@[simp] theorem Scopes.pop_rename (s : Scopes) : (s.rename f).pop = s.pop.rename f := by
  simp [Scopes.pop, Scopes.rename]

@[simp] theorem Scopes.current?_rename (s : Scopes) : (s.rename f).current? = s.current?.map (Scope.rename f) := by
  simp [Scopes.current?, Scopes.rename]

/-! ## Looking up -/

section Lookup

variable {f} (hf : Function.Injective f)
include hf

/-- The image of a name is found just where the name is. -/
theorem find?_map_rename {α : Type} (g : α → α) (entries : List (Symbol × α)) (name : Symbol) :
    ((entries.map (Prod.map f g)).find? (·.1 = f name)).map (·.2) = ((entries.find? (·.1 = name)).map (·.2)).map g := by
  induction entries with
  | nil => rfl
  | cons x entries ih =>
    by_cases h : x.1 = name
    · simp [h]
    · have hne : f x.1 ≠ f name := fun heq => h (hf heq)
      simpa [h, hne] using ih

theorem Scope.get?_rename (s : Scope) (name : Symbol) :
    (s.rename f).get? (f name) = (s.get? name).map (Entry.rename f) := find?_map_rename hf _ s.entries name

theorem ClassTable.get?_rename (t : ClassTable) (name : Symbol) :
    (t.rename f).get? (f name) = (t.get? name).map (ClassInfo.rename f) := find?_map_rename hf _ t.entries name

theorem ClassTable.contains_rename (t : ClassTable) (name : Symbol) : (t.rename f).contains (f name) = t.contains name := by
  simp [ClassTable.contains, t.get?_rename hf]

theorem ClassTable.insertNew_rename (t : ClassTable) (name : Symbol) (info : ClassInfo) :
    (t.rename f).insertNew (f name) (info.rename f) = (t.insertNew name info).rename f := by
  unfold ClassTable.insertNew
  rw [t.contains_rename hf]
  split
  · rfl
  · simp [ClassTable.rename]

theorem ClassTable.member?_rename (t : ClassTable) (name member : Symbol) :
    (t.rename f).member? (f name) (f member) = (t.member? name member).map (Entry.rename f) := by
  unfold ClassTable.member?
  rw [t.get?_rename hf]
  cases t.get? name with
  | none => rfl
  | some info => exact info.scope.get?_rename hf member

theorem Scope.declare_rename (s : Scope) (name : Symbol) (depth : Nat) (ty : CheckedType) (kind : EntryKind) :
    (s.rename f).declare (f name) depth (ty.rename f) kind =
      (s.declare name depth ty kind).map (Prod.map (Entry.rename f) (Scope.rename f)) := by
  unfold Scope.declare
  simp only [s.get?_rename hf, Option.isSome_map, nextOffset_rename]
  split
  · rfl
  · split <;> simp [Scope.rename, Entry.rename]

namespace Scopes

variable (s : Scopes)

theorem declare_rename (name : Symbol) (depth : Nat) (ty : CheckedType) (kind : EntryKind) :
    (s.rename f).declare (f name) depth (ty.rename f) kind =
      (s.declare name depth ty kind).map (Prod.map (Entry.rename f) (Scopes.rename f)) := by
  obtain ⟨stack⟩ := s
  cases stack with
  | nil => rfl
  | cons scope outer =>
    simp only [declare, rename, List.map_cons, scope.declare_rename hf, Option.map_map]
    rfl

theorem lookup?_rename (name : Symbol) : (s.rename f).lookup? (f name) = (s.lookup? name).map (Entry.rename f) := by
  obtain ⟨stack⟩ := s
  simp only [lookup?, rename]
  induction stack with
  | nil => rfl
  | cons scope stack ih =>
    simp only [List.map_cons, List.findSome?_cons, scope.get?_rename hf]
    cases scope.get? name with
    | none => exact ih
    | some e => rfl

theorem classScope?_rename (name : Symbol) :
    (s.rename f).classScope? (f name) = (s.classScope? name).map (Scope.rename f) := by
  obtain ⟨stack⟩ := s
  simp only [classScope?, rename, List.find?_map]
  congr 2
  funext scope
  cases hk : scope.kind <;> simp [Scope.rename, ScopeKind.rename, hk, hf.eq_iff]

theorem globalClass?_rename (name : Symbol) :
    (s.rename f).globalClass? (f name) = (s.globalClass? name).map (Entry.rename f) := by
  simp only [globalClass?, global?, rename, List.getLast?_map]
  cases s.stack.getLast? with
  | none => rfl
  | some scope =>
    simp only [Option.map_some, Option.bind_some, scope.get?_rename hf, Option.filter_map]
    rfl

end Scopes

namespace Binder

variable (b : Binder)

theorem knowsClass_rename (name : Symbol) : (b.rename f).knowsClass (f name) = b.knowsClass name := by
  have hcurrent : (b.currentClass.map f == some (f name)) = (b.currentClass == some name) := by
    cases b.currentClass <;> simp [hf.eq_iff]
  simp only [knowsClass, rename, hcurrent, b.classes.contains_rename hf, b.scopes.globalClass?_rename hf,
    Option.isSome_map]

theorem member?_rename (cls name : Symbol) :
    (b.rename f).member? (f cls) (f name) = (b.member? cls name).map (Entry.rename f) := by
  simp only [member?, rename, b.classes.member?_rename hf, b.scopes.classScope?_rename hf]
  cases b.classes.member? cls name with
  | some e => rfl
  | none =>
    cases b.scopes.classScope? cls with
    | none => rfl
    | some scope => exact scope.get?_rename hf name

end Binder

end Lookup

/-! ## Steps -/

namespace Binder

variable {f} {α β : Type} {r : α → α} {r' : β → β}

/-- On renamed states the first step does what the second does. -/
def Parallel (f : Symbol → Symbol) (r : α → α) (m' m : BindM α) : Prop :=
  ∀ b : Binder, m' (b.rename f) = (r (m b).1, (m b).2.rename f)

namespace Parallel

theorem pure {a' a : α} (h : a' = r a) : Parallel f r (Pure.pure a') (Pure.pure a) := fun _ => by
  rw [h]
  rfl

theorem bind {m' m : BindM α} {k' k : α → BindM β} (hm : Parallel f r m' m) (hk : ∀ a, Parallel f r' (k' (r a)) (k a)) :
    Parallel f r' (m' >>= k') (m >>= k) := fun b => by
  change k' (m' (b.rename f)).1 (m' (b.rename f)).2 = _
  rw [hm b]
  exact hk _ _

theorem modify {g' g : Binder → Binder} (h : ∀ b, g' (b.rename f) = (g b).rename f) :
    Parallel f id (modify g') (modify g) := fun b => congrArg (Prod.mk ()) (h b)

/-- A step that goes on from the state it finds. -/
theorem get {k' k : Binder → BindM β} (h : ∀ b, Parallel f r' (k' (b.rename f)) (k b)) :
    Parallel f r' (MonadState.get >>= k') (MonadState.get >>= k) := fun b => h b b

theorem ite {c : Prop} [Decidable c] {m' m n' n : BindM α} (hm : Parallel f r m' m) (hn : Parallel f r n' n) :
    Parallel f r (if c then m' else n') (if c then m else n) := by
  split
  · exact hm
  · exact hn

theorem forM {γ δ : Type} {g : γ → δ} {step' : δ → BindM Unit} {step : γ → BindM Unit} {xs : List γ}
    (h : ∀ x, Parallel f id (step' (g x)) (step x)) : Parallel f id ((xs.map g).forM step') (xs.forM step) := by
  induction xs with
  | nil => exact .pure rfl
  | cons x xs ih => exact (h x).bind fun _ => ih

theorem each {γ : Type} {step' step : γ → BindM Unit} (xs : List γ) (h : ∀ x, Parallel f id (step' x) (step x)) :
    Parallel f id (xs.forM step') (xs.forM step) := by
  have hmap : Parallel f id ((xs.map id).forM step') (xs.forM step) := forM h
  rwa [List.map_id] at hmap

theorem mapM {γ δ : Type} {g : γ → δ} {step' : δ → BindM α} {step : γ → BindM α} {xs : List γ}
    (h : ∀ x, Parallel f r (step' (g x)) (step x)) : Parallel f (List.map r) ((xs.map g).mapM step') (xs.mapM step) := by
  induction xs with
  | nil => exact .pure rfl
  | cons x xs ih =>
    simp only [List.map_cons, List.mapM_cons]
    refine (h x).bind fun _ => ih.bind fun _ => ?_
    exact .pure rfl

end Parallel

theorem parallel_report (cause : BindError.Cause) (place : Option Location) :
    Parallel f id (report cause place) (report cause place) := .modify fun _ => rfl

theorem parallel_resolve (e : ExprRef) (x : Resolution) : Parallel f id (resolve e (x.rename f)) (resolve e x) :=
  .modify fun b => by simp [rename]

theorem parallel_inScope (scope : Scope) {body' body : BindM Unit} (h : Parallel f id body' body) :
    Parallel f (Option.map (Scope.rename f)) (inScope (scope.rename f) body') (inScope scope body) := by
  refine Parallel.bind (r := id) (.modify fun _ => rfl) fun _ => h.bind fun _ => .get fun b => ?_
  refine Parallel.bind (r := id) (.modify fun b => by simp [rename]) fun _ => ?_
  exact .pure (by simp [rename])

variable {arena : Arena} {names' names : Names}

mutual

theorem parallel_checkType (hf : Function.Injective f) (ht : ∀ s, names'.text (f s) = names.text s)
    (place : Option Location) : ∀ ty : Ty,
    Parallel f (CheckedType.rename f) (checkType names' place (ty.rename f)) (checkType names place ty)
  | .int => .pure rfl
  | .bool => .pure rfl
  | .object name => by
    refine .get fun b => ?_
    simp only [b.knowsClass_rename hf, ht]
    exact .ite ((parallel_report _ _).bind fun _ => .pure rfl) (.pure rfl)
  | .arrow params ret => by
    refine (parallel_checkTypes hf ht place params).bind fun _ => (parallel_checkType hf ht place ret).bind fun _ => ?_
    exact .pure (by rw [CheckedType.rename, CheckedType.renameAll_eq_map])

theorem parallel_checkTypes (hf : Function.Injective f) (ht : ∀ s, names'.text (f s) = names.text s)
    (place : Option Location) : ∀ tys : List Ty,
    Parallel f (List.map (CheckedType.rename f)) (checkTypes names' place (Ty.renameAll f tys)) (checkTypes names place tys)
  | [] => .pure rfl
  | ty :: tys => by
    refine (parallel_checkType hf ht place ty).bind fun _ => (parallel_checkTypes hf ht place tys).bind fun _ => ?_
    exact .pure rfl

end

section

variable (hf : Function.Injective f) (ht : ∀ s, names'.text (f s) = names.text s)
include hf ht

theorem parallel_declare (name : Symbol) (ty : CheckedType) (kind : EntryKind) (place : Option Location) :
    Parallel f id (declare names' (f name) (ty.rename f) kind place) (declare names name ty kind place) := by
  refine .get fun b => ?_
  have hdeclare := b.scopes.declare_rename hf name b.scopes.depth ty kind
  simp only [rename, Scopes.depth_rename, hdeclare, ht]
  cases b.scopes.declare name b.scopes.depth ty kind with
  | none => exact (parallel_report _ _).bind fun _ => .pure rfl
  | some answer => exact fun _ => rfl

/-! ### Expressions -/

theorem parallel_resolveName (e : ExprRef) (name : Symbol) :
    Parallel f (Option.map (Resolution.rename f)) (resolveName (arena.rename f) names' e (f name))
      (resolveName arena names e name) := by
  refine .get fun b => ?_
  have hlookup : (b.rename f).scopes.lookup? (f name) = _ := b.scopes.lookup?_rename hf name
  have hdepth : (b.rename f).scopes.depth = b.scopes.depth := b.scopes.depth_rename f
  simp only [hlookup, hdepth, ht, Arena.location?_rename]
  cases b.scopes.lookup? name with
  | none => exact (parallel_report _ _).bind fun _ => .pure rfl
  | some entry =>
    refine (parallel_resolve e ⟨entry, b.scopes.depth, none⟩).bind fun _ => ?_
    exact .pure rfl

theorem parallel_resolveValue (e : ExprRef) (name : Symbol) :
    Parallel f id (resolveValue (arena.rename f) names' e (f name)) (resolveValue arena names e name) := by
  refine (parallel_resolveName hf ht e name).bind fun answer => ?_
  cases answer with
  | none => exact .pure rfl
  | some x =>
    simp only [Option.map_some, ht, Arena.location?_rename]
    exact .ite (parallel_report _ _) (.pure rfl)

theorem parallel_resolveMethod (e : ExprRef) (receiver method : Symbol) :
    Parallel f id (resolveMethod (arena.rename f) names' e (f receiver) (f method))
      (resolveMethod arena names e receiver method) := by
  refine .get fun b => ?_
  have hlookup : (b.rename f).scopes.lookup? (f receiver) = _ := b.scopes.lookup?_rename hf receiver
  have hdepth : (b.rename f).scopes.depth = b.scopes.depth := b.scopes.depth_rename f
  simp only [hlookup, hdepth, ht, Arena.location?_rename]
  cases b.scopes.lookup? receiver with
  | none => exact parallel_report _ _
  | some entry =>
    simp only [Option.map_some, Entry.rename, CheckedType.className?_rename]
    cases entry.ty.className? with
    | none => exact parallel_report _ _
    | some cls =>
      simp only [Option.map_some, b.knowsClass_rename hf, b.member?_rename hf, Option.filter_map, ht]
      refine .ite ?_ (.pure rfl)
      have hkind : (fun m : Entry => decide (m.kind = .method)) ∘ Entry.rename f = fun m => decide (m.kind = .method) := rfl
      rw [hkind]
      cases (b.member? cls method).filter fun m => m.kind = .method with
      | none => exact parallel_report _ _
      | some m => exact parallel_resolve e ⟨entry, b.scopes.depth, some m⟩

theorem parallel_resolveNew (e : ExprRef) (cls : Symbol) :
    Parallel f id (resolveNew (arena.rename f) names' e (f cls)) (resolveNew arena names e cls) := by
  refine .get fun b => ?_
  have hclass : (b.rename f).scopes.globalClass? (f cls) = _ := b.scopes.globalClass?_rename hf cls
  have hdepth : (b.rename f).scopes.depth = b.scopes.depth := b.scopes.depth_rename f
  simp only [hclass, hdepth, ht, Arena.location?_rename]
  cases b.scopes.globalClass? cls with
  | none => exact parallel_report _ _
  | some entry => exact parallel_resolve e ⟨entry, b.scopes.depth, none⟩

theorem parallel_expr (n : Nat) (e : ExprRef) :
    Parallel f id (expr (arena.rename f) names' n e) (expr arena names n e) := by
  induction n generalizing e with
  | zero =>
    simp only [expr, Arena.location?_rename]
    exact parallel_report _ _
  | succ n ih =>
    simp only [expr, Arena.expr?_rename, Arena.leftSpine_rename]
    cases arena.expr? e with
    | none => exact .pure rfl
    | some x =>
      cases x with
      | int => exact .pure rfl
      | bool => exact .pure rfl
      | null => exact .pure rfl
      | binary =>
        exact (ih _).bind fun _ => .each _ fun x => ih x.2
      | not operand => exact ih operand
      | ifElse condition onTrue onFalse => exact (ih condition).bind fun _ => (ih onTrue).bind fun _ => ih onFalse
      | print operand => exact ih operand
      | name x => exact parallel_resolveValue hf ht e x
      | call x args => exact (parallel_resolveName hf ht e x).bind fun _ => .each args ih
      | methodCall x m args => exact (parallel_resolveMethod hf ht e x m).bind fun _ => .each args ih
      | new x args => exact (parallel_resolveNew hf ht e x).bind fun _ => .each args ih

theorem parallel_whole (e : ExprRef) : Parallel f id (whole (arena.rename f) names' e) (whole arena names e) :=
  parallel_expr hf ht maxNesting e

/-! ### Declarations -/

theorem parallel_declareAll (kind : EntryKind) (members : List TypedName) (types : List CheckedType) :
    Parallel f id (declareAll names' kind (members.map (TypedName.rename f)) (types.map (CheckedType.rename f)))
      (declareAll names kind members types) := by
  unfold declareAll
  rw [List.zip_map]
  refine .forM fun x => (parallel_declare hf ht x.1.name x.2 kind x.1.location).bind fun _ => ?_
  exact .pure rfl

omit hf ht in
theorem paramTypes_rename (ty : CheckedType) : paramTypes (ty.rename f) = (paramTypes ty).map (CheckedType.rename f) := by
  cases ty <;> simp [paramTypes, CheckedType.rename]

theorem parallel_function {bindLocal' bindLocal : DeclRef → BindM Unit}
    (h : ∀ d, Parallel f id (bindLocal' d) (bindLocal d)) (g : Function) (ty : CheckedType) (kind : EntryKind) :
    Parallel f id (function (arena.rename f) names' bindLocal' (g.rename f) (ty.rename f) kind)
      (function arena names bindLocal g ty kind) := by
  refine (parallel_declare hf ht g.name ty kind g.location).bind fun _ => ?_
  refine (parallel_inScope (.empty .function) ?_).bind fun _ => .pure rfl
  rw [paramTypes_rename]
  refine (parallel_declareAll hf ht .param g.params (paramTypes ty)).bind fun _ => ?_
  exact (Parallel.each g.locals h).bind fun _ => parallel_whole hf ht g.body

theorem parallel_classShape (c : Class) :
    Parallel f (ClassShape.rename f) (classShape names' (c.rename f)) (classShape names c) := by
  refine (Parallel.mapM fun m => parallel_checkType hf ht m.location m.ty).bind fun fields => ?_
  refine Parallel.bind (r := List.map (CheckedType.rename f)) (.mapM fun m => ?_) fun methods => ?_
  · rw [Function.arrowType_rename]
    exact parallel_checkType hf ht m.location m.arrowType
  · exact .pure rfl

theorem parallel_classBody {bindLocal' bindLocal : DeclRef → BindM Unit}
    (h : ∀ d, Parallel f id (bindLocal' d) (bindLocal d)) (c : Class) :
    Parallel f id (classBody (arena.rename f) names' bindLocal' (c.rename f)) (classBody arena names bindLocal c) := by
  refine Parallel.bind (r := id) (.modify fun _ => rfl) fun _ => (parallel_classShape hf ht c).bind fun shape => ?_
  rw [ClassShape.type_rename]
  refine (parallel_declare hf ht c.name shape.type .cls c.location).bind fun declared => ?_
  refine (parallel_inScope (.empty (.cls c.name)) ?_).bind fun scope => ?_
  · refine (parallel_declareAll hf ht .field c.fields shape.fields).bind fun _ => ?_
    simp only [Class.rename, ClassShape.rename, List.zip_map]
    exact .forM fun x => parallel_function hf ht h x.1 x.2 .method
  · refine Parallel.bind (r := id) (.modify fun _ => rfl) fun _ => ?_
    cases declared with
    | false => exact .pure rfl
    | true =>
      cases scope with
      | none => exact .pure rfl
      | some scope =>
        refine .modify fun b => ?_
        have hinsert := b.classes.insertNew_rename hf c.name ⟨shape, scope⟩
        simp only [rename, ← hinsert]
        rfl

theorem parallel_decl (n : Nat) (d : DeclRef) :
    Parallel f id (decl (arena.rename f) names' n d) (decl arena names n d) := by
  induction n generalizing d with
  | zero => exact .pure rfl
  | succ n ih =>
    simp only [decl, Arena.decl?_rename]
    cases arena.decl? d with
    | none => exact .pure rfl
    | some x =>
      cases x with
      | varDecl v =>
        refine (parallel_whole hf ht v.init).bind fun _ => (parallel_checkType hf ht v.location v.ty).bind fun ty => ?_
        refine (parallel_declare hf ht v.name ty .var v.location).bind fun _ => ?_
        exact .pure rfl
      | funDecl g =>
        simp only [Option.map_some, Decl.rename, Function.arrowType_rename]
        exact (parallel_checkType hf ht g.location g.arrowType).bind fun ty => parallel_function hf ht ih g ty .func
      | classDecl c =>
        refine .get fun b => ?_
        have hdepth : (b.rename f).scopes.depth = b.scopes.depth := b.scopes.depth_rename f
        simp only [hdepth]
        refine .ite (parallel_classBody hf ht ih c) ?_
        rw [show names'.text (c.rename f).name = names.text c.name from ht c.name]
        exact parallel_report _ _

end

end Binder

/-- **A renamed program is bound as the program is, its symbols renamed.** -/
theorem Program.bind_rename {f : Symbol → Symbol} {names' names : Names} (hf : Function.Injective f)
    (ht : ∀ s, names'.text (f s) = names.text s) (p : Program) :
    (p.rename f).bind names' = (p.bind names).rename f := by
  have hglobals : Binder.Parallel f id ((p.rename f).bindGlobals names') (p.bindGlobals names) := by
    refine (Binder.parallel_inScope (.empty .global) ?_).bind fun _ => .pure rfl
    rw [show (p.rename f).arena.decls.size = p.arena.decls.size from Arena.size_decls_rename f p.arena]
    exact (Binder.Parallel.each p.declarations (Binder.parallel_decl hf ht _)).bind fun _ =>
      Binder.parallel_whole hf ht p.body
  have hstart : (Binder.start p.arena.nodes.size).rename f = .start (p.rename f).arena.nodes.size := by
    simp [Binder.start, Binder.rename, Program.rename, Resolutions.rename, Resolutions.blank, Scopes.rename, Scopes.empty,
      ClassTable.rename, ClassTable.empty]
  have hrun := hglobals (.start p.arena.nodes.size)
  rw [hstart] at hrun
  simp only [bind, hrun]
  rfl

end Fool
