import Fool.Proofs.Binding.Locals
import Fool.Proofs.Binding.Plain

/-!
# When the shape of a program is reported

Two faults lie in how a program is put together, not in its names: expressions are nested too deep, or a class is declared
inside a function. Steps that look at names report neither (`Mute`). An expression is reported for its depth exactly if some
way down from it takes more levels than are left, whatever the names in it mean (`reports_expr`), and binding a declaration
with a sufficient budget reports exactly what lies on the ways inwards from it (`reports_decl`). So it does for the whole
program (`Program.reports_iff`), which need not be a tree: expressions may be shared, missing, or lead in circles.
-/

namespace Fool

open Relation (TransGen ReflTransGen)

/-- The cause lies in how the program is put together. -/
def BindError.Cause.Structural : BindError.Cause → Prop
  | .nestingTooDeep _ | .misplacedClass _ => True
  | _ => False

namespace Binder

variable {α β : Type} {a : Arena} {names : Names} {n k : Nat} {e : ExprRef} {b b' b'' : Binder} {cause : BindError.Cause}
  {P Q R : Prop}

/-! ## What is reported between two states -/

/-- Faults are only added, and one of this cause is among them if and only if `Q`. -/
structure Reports (cause : BindError.Cause) (Q : Prop) (b b' : Binder) : Prop where
  errors : b.errors <+: b'.errors
  iff : (∃ err ∈ b'.errors.drop b.errors.length, err.cause = cause) ↔ Q

/-- Faults are only added, none of them for the shape of the program. -/
def Silent (b b' : Binder) : Prop := ∃ new, b'.errors = b.errors ++ new ∧ ∀ err ∈ new, ¬err.cause.Structural

theorem Reports.trans (h : Reports cause Q b b') (h' : Reports cause R b' b'') : Reports cause (Q ∨ R) b b'' := by
  obtain ⟨⟨new, hnew⟩, hiff⟩ := h
  obtain ⟨⟨new', hnew'⟩, hiff'⟩ := h'
  rw [← hnew, List.drop_left] at hiff
  rw [← hnew', List.drop_left] at hiff'
  refine ⟨⟨new ++ new', by rw [← hnew', ← hnew, List.append_assoc]⟩, ?_⟩
  rw [← hnew', ← hnew, List.append_assoc, List.drop_left, ← hiff, ← hiff']
  simp only [List.mem_append, or_and_right, exists_or]

theorem Reports.congr (h : Reports cause Q b b') (hQ : R ↔ Q) : Reports cause R b b' := ⟨h.errors, h.iff.trans hQ.symm⟩

theorem Silent.reports (h : Silent b b') (hc : cause.Structural) : Reports cause False b b' := by
  obtain ⟨new, hnew, hnone⟩ := h
  refine ⟨⟨new, hnew.symm⟩, ?_⟩
  rw [hnew, List.drop_left]
  refine iff_false_intro ?_
  rintro ⟨err, herr, rfl⟩
  exact hnone err herr hc

theorem Silent.of_errors (h : b'.errors = b.errors) : Silent b b' := ⟨[], by simpa using h, by simp⟩

theorem Silent.trans (h : Silent b b') (h' : Silent b' b'') : Silent b b'' := by
  obtain ⟨new, hnew, hnone⟩ := h
  obtain ⟨new', hnew', hnone'⟩ := h'
  refine ⟨new ++ new', by rw [hnew', hnew, List.append_assoc], fun err herr => ?_⟩
  exact (List.mem_append.1 herr).elim (hnone err) (hnone' err)

/-- A silent step in front changes nothing, -/
theorem Reports.behind (h : Reports cause Q b' b'') (hs : Silent b b') (hc : cause.Structural) : Reports cause Q b b'' :=
  ((hs.reports hc).trans h).congr (by rw [false_or])

/-- nor does one behind. -/
theorem Reports.front (h : Reports cause Q b b') (hs : Silent b' b'') (hc : cause.Structural) : Reports cause Q b b'' :=
  (h.trans (hs.reports hc)).congr (by rw [or_false])

theorem reports_refl (cause : BindError.Cause) (b : Binder) : Reports cause False b b := ⟨List.prefix_rfl, by simp⟩

/-- A fault that is reported. -/
theorem reports_report (cause cause' : BindError.Cause) (place : Option Location) (b : Binder) :
    Reports cause (cause = cause') b (report cause' place b).2 :=
  ⟨List.prefix_append _ _, by simp [eq_comm]⟩

/-- Steps one after the other, each of which keeps what the next one needs. -/
theorem reports_forM {γ : Type} {S : Binder → Prop} {Q : γ → Prop} {f : γ → BindM Unit} : ∀ {xs : List γ} {b : Binder},
    (∀ x ∈ xs, ∀ b, S b → S (f x b).2 ∧ Reports cause (Q x) b (f x b).2) → S b →
    S (xs.forM f b).2 ∧ Reports cause (∃ x ∈ xs, Q x) b (xs.forM f b).2
  | [], b, _, hb => ⟨hb, (reports_refl cause b).congr (by simp)⟩
  | x :: xs, b, h, hb => by
    obtain ⟨hS, hx⟩ := h x List.mem_cons_self b hb
    obtain ⟨hS', hxs⟩ := reports_forM (fun y hy => h y (List.mem_cons_of_mem _ hy)) hS
    exact ⟨hS', (hx.trans hxs).congr (by simp)⟩

/-! ## Steps that look at names -/

/-- The step reports nothing for the shape of the program. -/
def Mute (m : BindM α) : Prop := ∀ b, Silent b (m b).2

theorem mute_pure (x : α) : Mute (pure x) := fun _ => .of_errors rfl

theorem mute_get : Mute (get : BindM Binder) := fun _ => .of_errors rfl

theorem mute_modify {f : Binder → Binder} (h : ∀ b, (f b).errors = b.errors) : Mute (modify f) := fun b => .of_errors (h b)

theorem mute_report {cause : BindError.Cause} (h : ¬cause.Structural) (place : Option Location) :
    Mute (report cause place) :=
  fun _ => ⟨[⟨cause, place⟩], rfl, by simpa using h⟩

theorem mute_resolve (e : ExprRef) (r : Resolution) : Mute (resolve e r) := mute_modify fun _ => rfl

theorem Mute.bind {m : BindM α} {f : α → BindM β} (hm : Mute m) (hf : ∀ x, Mute (f x)) : Mute (m >>= f) := fun b =>
  (hm b).trans (hf _ _)

theorem mute_forM {γ : Type} {f : γ → BindM Unit} (h : ∀ x, Mute (f x)) (xs : List γ) : Mute (xs.forM f) :=
  forM_keeps (K := Silent) (fun _ => .of_errors rfl) Silent.trans fun x _ => h x

theorem mute_mapM {γ : Type} {f : γ → BindM β} (h : ∀ x, Mute (f x)) : ∀ xs : List γ, Mute (xs.mapM f)
  | [] => by
    rw [List.mapM_nil]
    exact mute_pure []
  | x :: xs => by
    rw [List.mapM_cons]
    exact (h x).bind fun _ => (mute_mapM h xs).bind fun _ => mute_pure _

theorem mute_resolveName (name : Symbol) : Mute (resolveName a names e name) := by
  refine mute_get.bind fun b => ?_
  cases b.scopes.lookup? name with
  | none => exact (mute_report id _).bind fun _ => mute_pure none
  | some entry => exact (mute_resolve e _).bind fun _ => mute_pure _

theorem mute_resolveValue (name : Symbol) : Mute (resolveValue a names e name) := by
  refine (mute_resolveName name).bind fun r => ?_
  cases r with
  | none => exact mute_pure ()
  | some r =>
    dsimp only
    split
    · exact mute_report id _
    · exact mute_pure ()

theorem mute_resolveMethod (receiver method : Symbol) : Mute (resolveMethod a names e receiver method) := by
  refine mute_get.bind fun b => ?_
  dsimp only
  cases b.scopes.lookup? receiver with
  | none => exact mute_report id _
  | some entry =>
    dsimp only
    cases entry.ty.className? with
    | none => exact mute_report id _
    | some cls =>
      dsimp only
      split
      · cases (b.member? cls method).filter fun m => m.kind = .method with
        | none => exact mute_report id _
        | some m => exact mute_resolve e _
      · exact mute_pure ()

theorem mute_resolveNew (cls : Symbol) : Mute (resolveNew a names e cls) := by
  refine mute_get.bind fun b => ?_
  cases b.scopes.globalClass? cls with
  | none => exact mute_report id _
  | some entry => exact mute_resolve e _

theorem mute_refer (x : Expr) : Mute (refer a names e x) := by
  cases x with
  | name name => exact mute_resolveValue name
  | call function args => exact (mute_resolveName function).bind fun _ => mute_pure ()
  | methodCall receiver method args => exact mute_resolveMethod receiver method
  | new name args => exact mute_resolveNew name
  | _ => exact mute_pure ()

variable (names) in
theorem mute_checkType (place : Option Location) (ty : Ty) : Mute (checkType names place ty) := fun b => by
  rw [checkType_run]
  refine ⟨_, rfl, fun err herr => ?_⟩
  obtain ⟨c, -, rfl⟩ := List.mem_map.1 herr
  exact id

theorem mute_declare (name : Symbol) (ty : CheckedType) (kind : EntryKind) (place : Option Location) :
    Mute (declare names name ty kind place) := fun b => by
  unfold declare
  simp only [bind_run, get_run]
  cases b.scopes.declare name b.scopes.depth ty kind with
  | none => exact mute_report id place b
  | some r => exact .of_errors rfl

theorem mute_declareAll (kind : EntryKind) (members : List TypedName) (types : List CheckedType) :
    Mute (declareAll names kind members types) :=
  mute_forM (fun (m, ty) => (mute_declare m.name ty kind m.location).bind fun _ => mute_pure ()) _

theorem mute_classShape (c : Class) : Mute (classShape names c) := by
  have hfields := mute_mapM (fun m : TypedName => mute_checkType names m.location m.ty) c.fields
  have hmethods := mute_mapM (fun m : Function => mute_checkType names m.location m.arrowType) c.methods
  exact hfields.bind fun _ => hmethods.bind fun _ => mute_pure _

theorem mute_leave : Mute leave := mute_modify fun _ => rfl

theorem mute_declareVar (v : Variable) : Mute (declareVar names v) :=
  (mute_checkType names v.location v.ty).bind fun _ => (mute_declare v.name _ .var v.location).bind fun _ => mute_pure ()

theorem mute_enterFunction (f : Function) (kind : EntryKind) : Mute (enterFunction names f kind) :=
  (mute_declare f.name _ kind f.location).bind fun _ => (mute_modify (by intro b; rfl)).bind fun _ =>
    mute_declareAll .param f.params _

theorem mute_enterFunDecl (f : Function) : Mute (enterFunDecl names f) :=
  (mute_checkType names f.location f.arrowType).bind fun _ => mute_enterFunction f .func

theorem mute_enterClass (c : Class) : Mute (enterClass names c) :=
  (mute_modify (by intro b; rfl)).bind fun _ => (mute_classShape c).bind fun _ =>
    (mute_declare c.name _ .cls c.location).bind fun _ => (mute_modify (by intro b; rfl)).bind fun _ =>
      mute_declareAll .field c.fields _

theorem mute_leaveClass (c : Class) (declared : Bool) : Mute (leaveClass c declared) := by
  refine mute_get.bind fun b => mute_leave.bind fun _ => (mute_modify (by intro b; rfl)).bind fun _ => ?_
  cases declared with
  | false => exact mute_pure ()
  | true =>
    cases b.scopes.current? with
    | none => exact mute_pure ()
    | some scope => exact mute_modify fun _ => rfl

/-! ## What there is to report -/

/-- What is reported for a declaration itself: a body or an initial value that is too deep, or a class that is not at the
outermost level. -/
inductive Raises (a : Arena) (names : Names) (s : DeclSite) : BindError.Cause → Prop
  | deep {w : ExprRef} : a.Holds s w → a.Deep maxNesting w → Raises a names s (.nestingTooDeep maxNesting)
  | misplaced {c : Class} : a.MisplacedAt s c → Raises a names s (.misplacedClass (names.text c.name))

/-- What is reported on the ways inwards from a declaration. -/
def RaisesWithin (a : Arena) (names : Names) (s : DeclSite) (cause : BindError.Cause) : Prop :=
  ∃ t, ReflTransGen a.Nests s t ∧ Raises a names t cause

/-- What is reported inside a function. -/
def RaisesInside (a : Arena) (names : Names) (f : Function) (cause : BindError.Cause) : Prop :=
  (∃ d ∈ f.locals, RaisesWithin a names ⟨d, false⟩ cause) ∨ cause = .nestingTooDeep maxNesting ∧ a.Deep maxNesting f.body

variable {s : DeclSite} {f : Function}

theorem raisesWithin_iff : RaisesWithin a names s cause ↔ (∃ f, a.Hosts s f ∧ RaisesInside a names f cause) ∨
    (∃ v, a.decl? s.decl = some (.varDecl v) ∧ cause = .nestingTooDeep maxNesting ∧ a.Deep maxNesting v.init) ∨
      ∃ c, a.MisplacedAt s c ∧ cause = .misplacedClass (names.text c.name) := by
  constructor
  · rintro ⟨t, hway, ht⟩
    rcases ReflTransGen.cases_head_iff.1 hway with rfl | ⟨u, ⟨hu, f, hf, hmem⟩, hrest⟩
    · cases ht with
      | deep hw hdeep =>
        cases hw with
        | init hx => exact .inr (.inl ⟨_, hx, rfl, hdeep⟩)
        | body hf => exact .inl ⟨_, hf, .inr ⟨rfl, hdeep⟩⟩
      | misplaced hm => exact .inr (.inr ⟨_, hm, rfl⟩)
    · obtain ⟨d, _⟩ := u
      cases hu
      exact .inl ⟨f, hf, .inl ⟨d, hmem, t, hrest, ht⟩⟩
  · rintro (⟨f, hf, ⟨d, hd, t, hrest, ht⟩ | ⟨rfl, hdeep⟩⟩ | ⟨v, hx, rfl, hdeep⟩ | ⟨c, hm, rfl⟩)
    · exact ⟨t, .head ⟨rfl, f, hf, hd⟩ hrest, ht⟩
    · exact ⟨s, .refl, .deep (.body hf) hdeep⟩
    · exact ⟨s, .refl, .deep (.init hx) hdeep⟩
    · exact ⟨s, .refl, .misplaced hm⟩

theorem not_raisesWithin_missing (hx : a.decl? s.decl = none) : ¬RaisesWithin a names s cause := by
  rw [raisesWithin_iff]
  rintro (⟨f, hf | ⟨_, hf, _⟩, -⟩ | ⟨v, hv, -⟩ | ⟨c, ⟨-, hm⟩, -⟩)
  · cases hx.symm.trans hf
  · cases hx.symm.trans hf
  · cases hx.symm.trans hv
  · cases hx.symm.trans hm

theorem raisesWithin_var {v : Variable} (hx : a.decl? s.decl = some (.varDecl v)) :
    RaisesWithin a names s cause ↔ cause = .nestingTooDeep maxNesting ∧ a.Deep maxNesting v.init := by
  rw [raisesWithin_iff]
  constructor
  · rintro (⟨f, hf | ⟨_, hf, _⟩, -⟩ | ⟨v', hv, hdeep⟩ | ⟨c, ⟨-, hm⟩, -⟩)
    · cases hx.symm.trans hf
    · cases hx.symm.trans hf
    · cases hx.symm.trans hv; exact hdeep
    · cases hx.symm.trans hm
  · exact fun hdeep => .inr (.inl ⟨v, hx, hdeep⟩)

theorem raisesWithin_fun (hx : a.decl? s.decl = some (.funDecl f)) :
    RaisesWithin a names s cause ↔ RaisesInside a names f cause := by
  rw [raisesWithin_iff]
  constructor
  · rintro (⟨g, hg, hinside⟩ | ⟨v, hv, -⟩ | ⟨c, ⟨-, hm⟩, -⟩)
    · obtain rfl := (Arena.hosts_fun hx).1 hg
      exact hinside
    · cases hx.symm.trans hv
    · cases hx.symm.trans hm
  · exact fun hinside => .inl ⟨f, .function hx, hinside⟩

theorem raisesWithin_class {c : Class} (hx : a.decl? s.decl = some (.classDecl c)) (ho : s.outermost = true) :
    RaisesWithin a names s cause ↔ ∃ m ∈ c.methods, RaisesInside a names m cause := by
  rw [raisesWithin_iff]
  constructor
  · rintro (⟨g, hg, hinside⟩ | ⟨v, hv, -⟩ | ⟨c, ⟨hinner, -⟩, -⟩)
    · exact ⟨g, ((Arena.hosts_class hx).1 hg).2, hinside⟩
    · cases hx.symm.trans hv
    · cases ho.symm.trans hinner
  · rintro ⟨m, hm, hinside⟩
    exact .inl ⟨m, .method ho hx hm, hinside⟩

theorem raisesWithin_misplaced {c : Class} (hx : a.decl? s.decl = some (.classDecl c)) (ho : s.outermost = false) :
    RaisesWithin a names s cause ↔ cause = .misplacedClass (names.text c.name) := by
  rw [raisesWithin_iff]
  constructor
  · rintro (⟨g, hg, -⟩ | ⟨v, hv, -⟩ | ⟨c', ⟨-, hm⟩, hcause⟩)
    · cases ho.symm.trans ((Arena.hosts_class hx).1 hg).1
    · cases hx.symm.trans hv
    · cases hx.symm.trans hm; exact hcause
  · exact fun hcause => .inr (.inr ⟨c, ⟨ho, hx⟩, hcause⟩)

/-- Expressions with so many levels left are reported for their depth exactly if some way down takes more. -/
def ReportsExprs (a : Arena) (names : Names) (cause : BindError.Cause) (n : Nat) : Prop :=
  ∀ e b, Reports cause (cause = .nestingTooDeep maxNesting ∧ a.Deep n e) b (expr a names n e b).2

/-- The declarations further in report what lies on the ways inwards from them. -/
def ReportsDecls (a : Arena) (names : Names) (cause : BindError.Cause) (n : Nat) : Prop :=
  ∀ s b, a.Reserve n s → AtLevel s.outermost b →
    Reports cause (RaisesWithin a names s cause) b (decl a names n s.decl b).2

/-! ## What is reported -/

theorem reports_parts (h : ReportsExprs a names cause n) (parts : List ExprRef) (b : Binder) :
    Reports cause (∃ part ∈ parts, cause = .nestingTooDeep maxNesting ∧ a.Deep n part) b
      (parts.forM (expr a names n) b).2 :=
  (reports_forM (S := fun _ => True) (fun part _ b _ => ⟨trivial, h part b⟩) trivial).2

/-- The operands that the walk down the left operands finds are bound one level below the chain. -/
theorem reports_spine (h : ReportsExprs a names cause n) (hk : a.Stops (fun _ => true) k e) (hop : a.IsBinary e) (b : Binder) :
    Reports cause (cause = .nestingTooDeep maxNesting ∧ a.Deep (n + 1) e) b
      (boundSpine (expr a names n) (a.leftSpine (fun _ => true) e) b).2 := by
  have hrest := reports_parts h ((a.leftSpine (fun _ => true) e).2.map (·.2))
    (expr a names n (a.leftSpine (fun _ => true) e).1 b).2
  rw [List.forM_eq_forM, List.forM_map] at hrest
  refine ((h _ b).trans hrest).congr ?_
  simp only [Arena.deep_succ, hk.under_iff hop, List.mem_map]
  constructor
  · rintro ⟨hcause, x, rfl | ⟨r, hr, rfl⟩, hdeep⟩
    · exact .inl ⟨hcause, hdeep⟩
    · exact .inr ⟨r.2, ⟨r, hr, rfl⟩, hcause, hdeep⟩
  · rintro (⟨hcause, hdeep⟩ | ⟨_, ⟨r, hr, rfl⟩, hcause, hdeep⟩)
    · exact ⟨hcause, _, .inl rfl, hdeep⟩
    · exact ⟨hcause, r.2, .inr ⟨r, hr, rfl⟩, hdeep⟩

section Walks

variable (hstops : ∀ e, ∃ k, a.Stops (fun _ => true) k e) (hc : cause.Structural)

include hstops hc

/-- **An expression is reported for its depth exactly if some way down from it takes more levels than are left.** -/
theorem reports_expr (n : Nat) : ReportsExprs a names cause n := by
  induction n with
  | zero =>
    intro e b
    refine (reports_report cause (.nestingTooDeep maxNesting) (a.location? e) b).congr ?_
    exact and_iff_left (a.deep_zero e)
  | succ n ih =>
    intro e b
    cases hx : a.expr? e with
    | none =>
      rw [expr, hx]
      exact (reports_refl cause b).congr (iff_of_false (fun h => Arena.not_deep_missing hx h.2) id)
    | some x =>
      by_cases hop : ∃ op left right, x = .binary op left right
      · obtain ⟨op, left, right, rfl⟩ := hop
        obtain ⟨k, hk⟩ := hstops e
        rw [expr_binary hx]
        exact reports_spine ih hk ⟨op, left, right, hx⟩ b
      · have hno : ∀ op left right, x ≠ .binary op left right := fun op left right heq => hop ⟨op, left, right, heq⟩
        rw [expr_node hx hno]
        refine ((reports_parts ih x.parts _).behind (mute_refer x b) hc).congr ?_
        simp only [Arena.deep_succ, Arena.under_node hx hno]
        constructor
        · rintro ⟨hcause, part, hp, hdeep⟩
          exact ⟨part, hp, hcause, hdeep⟩
        · rintro ⟨part, hp, hcause, hdeep⟩
          exact ⟨hcause, part, hp, hdeep⟩

theorem reports_region (h : ReportsDecls a names cause n) (hreserve : ∀ d ∈ f.locals, a.Reserve n ⟨d, false⟩)
    (hb : AtLevel false b) : Reports cause (RaisesInside a names f cause) b
      (region a names n f.locals f.body b).2 := by
  have hlocals := reports_forM (S := AtLevel false) (f := decl a names n)
    (fun d hd b hb => ⟨hb.decl n d, h ⟨d, false⟩ b (hreserve d hd) hb⟩) hb
  exact hlocals.2.trans (reports_expr hstops hc maxNesting f.body _)

theorem reports_function (h : ReportsDecls a names cause n) (hreserve : ∀ d ∈ f.locals, a.Reserve n ⟨d, false⟩)
    (kind : EntryKind) (hb : b.scopes.stack ≠ []) : Reports cause (RaisesInside a names f cause) b
      (function a names (decl a names n) f f.arrowType.checked kind b).2 := by
  have hin := reports_region hstops hc h hreserve (atLevel_enterFunction names f kind hb)
  rw [function_run]
  exact (hin.behind (mute_enterFunction f kind b) hc).front (mute_leave _) hc

theorem reports_methods (h : ReportsDecls a names cause n) {ms : List Function}
    (hreserve : ∀ m ∈ ms, ∀ d ∈ m.locals, a.Reserve n ⟨d, false⟩) (hb : b.scopes.stack ≠ []) :
    Reports cause (∃ m ∈ ms, RaisesInside a names m cause) b (methods a names n ms b).2 := by
  exact (reports_forM (S := fun b => b.scopes.stack ≠ []) (fun m hm b hb =>
    ⟨nonempty_function m .method hb n, reports_function hstops hc h (hreserve m hm) .method hb⟩) hb).2

/-- **Binding a declaration reports exactly what lies on the ways inwards from it,** if the budget suffices for these. -/
theorem reports_decl : ∀ n, ReportsDecls a names cause n := by
  intro n
  induction n with
  | zero => exact fun s b h _ => absurd h Arena.not_reserve_zero
  | succ n ih =>
    intro s b hreserve hb
    have hlocals : ∀ f, a.Hosts s f → ∀ d ∈ f.locals, a.Reserve n ⟨d, false⟩ := fun f hf d hd =>
      hreserve.nests ⟨rfl, f, hf, hd⟩
    cases hx : a.decl? s.decl with
    | none =>
      rw [decl, hx]
      exact (reports_refl cause b).congr (iff_of_false (not_raisesWithin_missing hx) id)
    | some x =>
      cases x with
      | varDecl v =>
        rw [decl_var hx]
        exact ((reports_expr hstops hc maxNesting v.init b).front (mute_declareVar v _) hc).congr (raisesWithin_var hx)
      | funDecl f =>
        have hstack : (checkType names f.location f.arrowType b).2.scopes.stack ≠ [] := by
          rw [checkType_run]
          exact hb.nonempty
        have hin := reports_region hstops hc ih (hlocals f (.function hx)) (b := (enterFunDecl names f b).2)
          (atLevel_enterFunction names f .func hstack)
        rw [decl_function hx]
        exact ((hin.behind (mute_enterFunDecl f b) hc).front (mute_leave _) hc).congr (raisesWithin_fun hx)
      | classDecl c =>
        cases ho : s.outermost with
        | true =>
          have hin := reports_methods hstops hc ih (fun m hm => hlocals m (.method ho hx hm))
            (enterClass_nonempty names c b)
          rw [decl_class_run hx b (hb.depth.2 ho)]
          exact ((hin.behind (mute_enterClass c b) hc).front (mute_leaveClass c _ _) hc).congr (raisesWithin_class hx ho)
        | false =>
          have hdepth : b.scopes.depth ≠ 0 := fun h0 => by cases ho.symm.trans (hb.depth.1 h0)
          rw [decl_classDecl hx, if_neg hdepth]
          exact (reports_report cause _ c.location b).congr (raisesWithin_misplaced hx ho)

end Walks

end Binder

/-! ## Programs -/

namespace Program

open Binder

variable {p : Program} {names : Names} {cause : BindError.Cause}

/-- Where all classes are at the outermost level, every body and every initial value is bound. -/
theorem bound_of_whole (hplaced : ∀ s c, p.Visits s → ¬p.arena.MisplacedAt s c) {w : ExprRef} (hw : p.Whole w) :
    p.Bound w := by
  have hin : ∀ {d : DeclRef} {w : ExprRef}, p.arena.WholeOf d w → ∀ s, s.decl = d → p.Visits s →
      ∃ t, p.Visits t ∧ p.arena.Holds t w := by
    intro d w hw
    induction hw with
    | init hx =>
      rintro s rfl hs
      exact ⟨s, hs, .init hx⟩
    | body hx =>
      rintro s rfl hs
      exact ⟨s, hs, .body (.function hx)⟩
    | @inner _ d' f _ hx hd _ ih =>
      rintro s rfl ⟨d, hd₀, hway⟩
      exact ih ⟨d', false⟩ rfl ⟨d, hd₀, hway.tail ⟨rfl, f, .function hx, hd⟩⟩
    | methodBody hx hm =>
      rintro s rfl hs
      exact ⟨s, hs, .body (.method (by_contra fun ho => hplaced s _ hs ⟨by simpa using ho, hx⟩) hx hm)⟩
    | @methodInner _ d' c m _ hx hm hd _ ih =>
      rintro s rfl hs
      have ho : s.outermost = true := by_contra fun ho => hplaced s c hs ⟨by simpa using ho, hx⟩
      obtain ⟨d, hd₀, hway⟩ := hs
      exact ih ⟨d', false⟩ rfl ⟨d, hd₀, hway.tail ⟨rfl, m, .method ho hx hm, hd⟩⟩
  rcases hw with rfl | ⟨d, hd, hw⟩
  · exact .inl rfl
  · exact .inr (hin hw ⟨d, true⟩ rfl ⟨d, hd, .refl⟩)

section Acyclic

variable (hstops : ∀ e, ∃ k, p.arena.Stops (fun _ => true) k e) (hdecls : ∀ d, ¬TransGen (Contains p.arena) d d)

include hstops hdecls

/-- **Which faults of its shape a program is reported for:** those on the ways inwards from its declarations, and the depth
of its body. -/
theorem reports_iff (hc : cause.Structural) :
    (∃ err ∈ (p.bind names).errors, err.cause = cause) ↔
      (∃ s, p.Visits s ∧ Raises p.arena names s cause) ∨
        cause = .nestingTooDeep maxNesting ∧ p.arena.Deep maxNesting p.body := by
  have hopened : AtLevel true (opened p) := ⟨List.cons_ne_nil _ _, iff_of_true rfl rfl⟩
  have hdeclared : Reports cause (∃ d ∈ p.declarations, RaisesWithin p.arena names ⟨d, true⟩ cause) (opened p)
      (p.declarations.forM (decl p.arena names (p.arena.decls.size + 1)) (opened p)).2 :=
    (reports_forM (S := AtLevel true) (fun d _ b hb => ⟨hb.decl _ d, reports_decl hstops hc _ ⟨d, true⟩ b
      (Arena.reserve_of_acyclic hdecls (Nat.lt_succ_self _) _) hb⟩) hopened).2
  have hall : Reports cause _ (opened p)
      (region p.arena names (p.arena.decls.size + 1) p.declarations p.body (opened p)).2 :=
    hdeclared.trans (reports_expr hstops hc maxNesting p.body _)
  refine Iff.trans ?_ (hall.iff.trans (or_congr_left ?_))
  · rfl
  · constructor
    · rintro ⟨d, hd, t, hway, ht⟩
      exact ⟨t, ⟨d, hd, hway⟩, ht⟩
    · rintro ⟨t, ⟨d, hd, hway⟩, ht⟩
      exact ⟨d, hd, t, hway, ht⟩

variable (names) in
/-- **The depth of an expression is reported exactly if a way down from a body or an initial value is too long.** -/
theorem nestingTooDeep_iff :
    (∃ err ∈ (p.bind names).errors, err.cause = .nestingTooDeep maxNesting) ↔
      ∃ w, p.Bound w ∧ p.arena.Deep maxNesting w := by
  have hc : (BindError.Cause.nestingTooDeep maxNesting).Structural := trivial
  rw [reports_iff hstops hdecls hc]
  constructor
  · rintro (⟨s, hs, hraises⟩ | ⟨-, hdeep⟩)
    · cases hraises with
      | deep hw hdeep => exact ⟨_, .inr ⟨s, hs, hw⟩, hdeep⟩
    · exact ⟨p.body, .inl rfl, hdeep⟩
  · rintro ⟨w, rfl | ⟨s, hs, hw⟩, hdeep⟩
    · exact .inr ⟨rfl, hdeep⟩
    · exact .inl ⟨s, hs, .deep hw hdeep⟩

/-- Where nothing is reported, no class that binding comes to is inside a function. -/
theorem not_misplacedAt (hclean : (p.bind names).errors = []) {s : DeclSite} {c : Class} (hs : p.Visits s) :
    ¬p.arena.MisplacedAt s c := by
  intro hm
  have hc : (BindError.Cause.misplacedClass (names.text c.name)).Structural := trivial
  obtain ⟨err, herr, -⟩ := (reports_iff hstops hdecls hc).2 (.inl ⟨s, hs, .misplaced hm⟩)
  rw [hclean] at herr
  cases herr

end Acyclic

end Program

end Fool
