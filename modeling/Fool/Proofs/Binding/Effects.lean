import Fool.Proofs.Binding.Steps
import Fool.Proofs.Tree.Layout

/-!
# Where binding a declaration leads

`Leads p m Γ Γ' lo hi` says that the step `m` leads from any state that stands at `Γ` to one that stands at `Γ'`, and
passes the expressions with numbers from `lo` to `hi` only. Binding declarations leads to the context behind them
(`leads_decl`, `leads_row`): whatever is declared inside a function or a class is closed again.
-/

namespace Fool

namespace Binder

/-- The step leads from one context to another and passes only the expressions between two numbers. -/
def Leads (p : Program) (m : BindM Unit) (Γ Γ' : Context) (lo hi : Nat) : Prop :=
  ∀ b, At p Γ b → At p Γ' (m b).2 ∧ Passes lo hi b (m b).2

variable {p : Program} {Γ Γ' Γ'' : Context} {m m' : BindM Unit} {lo mid hi : Nat} {names : Names} {k n : Nat}

theorem Leads.seq (h : Leads p m Γ Γ' lo mid) (h' : Leads p m' Γ' Γ'' mid hi) (hlo : lo ≤ mid) (hhi : mid ≤ hi) :
    Leads p (do m; m') Γ Γ'' lo hi := by
  intro b hb
  obtain ⟨hat, hpass⟩ := h b hb
  obtain ⟨hat', hpass'⟩ := h' _ hat
  exact ⟨hat', hpass.trans hpass' hlo hhi⟩

theorem Leads.congr (h : Leads p m Γ Γ' lo hi) (heq : ∀ b, At p Γ b → (m' b).2 = (m b).2) :
    Leads p m' Γ Γ' lo hi := by
  intro b hb
  rw [heq b hb]
  exact h b hb

theorem leads_pure : Leads p (pure ()) Γ Γ lo hi := fun b hb => ⟨hb, .refl lo hi b⟩

/-- A whole expression leads back to where it stands. -/
theorem leads_whole (hpost : p.arena.Postordered) (hk : k ≤ maxNesting) {s t : Pos} {e : ExprRef}
    (h : p.arena.Fill k s [e] t) : Leads p (whole p.arena names e) Γ Γ s.nodes t.nodes := by
  intro b hb
  obtain ⟨⟨hf, hlt, hend⟩, -, hn⟩ := h
  rw [whole, expr_eq_walk hpost ((hn e List.mem_cons_self).mono hk)]
  refine hb.visitAll fun e' he' => ?_
  have hmem := (hpost.mem_walk hlt).1 he'
  simp only [Arena.Tiles] at hend
  omega

/-! ## Members -/

variable (names) in
/-- Members of known types are declared one after the other. -/
theorem At.declareAll {b : Binder} (h : At p Γ b) (hne : Γ ≠ []) (kind : EntryKind) (xs : List TypedName)
    (hty : b.errors = [] → ∀ x ∈ xs, ∀ c ∈ x.ty.checked.classes, Γ.Knows c) :
    At p (Γ.declareAll (Declared.members kind xs)) (Binder.declareAll names kind xs (xs.map fun x => x.ty.checked) b).2 ∧
      Passes lo hi b (Binder.declareAll names kind xs (xs.map fun x => x.ty.checked) b).2 := by
  induction xs generalizing Γ b with
  | nil => exact ⟨by rw [Declared.members, List.map_nil, Context.declareAll_nil]; exact h, .refl lo hi b⟩
  | cons x xs ih =>
    obtain ⟨hat, hpass⟩ : At p (Γ.declareAll [⟨x.name, kind, x.ty.checked⟩])
        (Binder.declare names x.name x.ty.checked kind x.location b).2 ∧
          Passes lo hi b (Binder.declare names x.name x.ty.checked kind x.location b).2 :=
      h.declare names (d := ⟨x.name, kind, x.ty.checked⟩) hne fun hb c hc =>
        (hty hb x List.mem_cons_self c hc).declareAll
    have hxs := ih hat (Context.declareAll_ne_nil _ hne) fun hb y hy c hc =>
      (hty (List.prefix_nil.1 (hb ▸ hpass.errors)) y (List.mem_cons_of_mem _ hy) c hc).declareAll
    rw [← Context.declareAll_append] at hxs
    exact ⟨hxs.1, hpass.again hxs.2⟩

/-! ## Functions -/

/-- A scope is closed. -/
def leave : BindM Unit := modify fun b => { b with scopes := b.scopes.pop }

/-- Declarations and the expression behind them. -/
def region (a : Arena) (names : Names) (n : Nat) (ds : List DeclRef) (body : ExprRef) : BindM Unit := do
  ds.forM (decl a names n)
  whole a names body

/-- A function is declared, its scope opened, and its parameters declared. -/
def enterFunction (names : Names) (f : Function) (kind : EntryKind) : BindM Unit := do
  let _ ← declare names f.name f.arrowType.checked kind f.location
  modify fun b => { b with scopes := b.scopes.push (.empty .function) }
  declareAll names .param f.params (f.params.map fun x => x.ty.checked)

theorem paramTypes_checked (f : Function) : paramTypes f.arrowType.checked = f.params.map fun x => x.ty.checked := by
  simp [Function.arrowType, Ty.checked, paramTypes, Ty.checkedAll_eq_map]

/-- A function is entered, its local declarations and its body are bound, and it is left. -/
theorem function_run (a : Arena) (f : Function) (kind : EntryKind) (b : Binder) :
    (function a names (decl a names n) f f.arrowType.checked kind b).2 =
      ((do enterFunction names f kind; region a names n f.locals f.body; leave) b).2 := by
  unfold function
  rw [paramTypes_checked]
  rfl

theorem At.push {b : Binder} (h : At p Γ b) (hne : Γ ≠ []) (kind : ScopeKind) :
    At p (⟨kind, []⟩ :: Γ) { b with scopes := b.scopes.push (.empty kind) } where
  scopes := by rw [h.scopes, Context.push_empty]
  current c hc := (Context.knows_cons _ hne).2 (h.current c hc)
  classes name info hi := by
    rw [Context.globals_cons _ hne]
    exact h.classes name info hi
  clean hb := (h.clean hb).push hne

variable (names) in
/-- Inside a function that has been entered. -/
theorem At.enterFunction {b : Binder} {f : Function} {kind : EntryKind} (h : At p Γ b) (hne : Γ ≠ [])
    (hty : b.errors = [] → ∀ c ∈ f.arrowType.checked.classes, (Γ.declareAll [f.declared kind]).Knows c) :
    At p (f.block :: Γ.declareAll [f.declared kind]) (enterFunction names f kind b).2 ∧
      Passes lo hi b (Binder.enterFunction names f kind b).2 := by
  obtain ⟨hat, hpass⟩ : At p (Γ.declareAll [f.declared kind])
      (Binder.declare names f.name f.arrowType.checked kind f.location b).2 ∧
        Passes lo hi b (Binder.declare names f.name f.arrowType.checked kind f.location b).2 :=
    h.declare names (d := f.declared kind) hne hty
  have hne' : Γ.declareAll [f.declared kind] ≠ [] := Context.declareAll_ne_nil _ hne
  have hin := hat.push hne' .function
  have hparams : (Binder.declare names f.name f.arrowType.checked kind f.location b).2.errors = [] →
      ∀ x ∈ f.params, ∀ c ∈ x.ty.checked.classes, Context.Knows (⟨.function, []⟩ :: Γ.declareAll [f.declared kind]) c := by
    intro hb x hx c hc
    obtain ⟨blk, hblk, hmem⟩ := Context.exists_mem_declareAll [f.declared kind] hne
    refine (Context.knows_cons _ hne').2 ((hat.clean hb).known blk hblk _ (hmem _ List.mem_cons_self) c ?_)
    have hall : x.ty.checked ∈ Ty.checkedAll (f.params.map (·.ty)) := by
      rw [Ty.checkedAll_eq_map]
      exact List.mem_map_of_mem (List.mem_map_of_mem hx)
    exact List.mem_append_left _ (CheckedType.mem_classesAll hall hc)
  obtain ⟨hat', hpass'⟩ := hin.declareAll names (List.cons_ne_nil _ _) .param f.params hparams
  exact ⟨hat', hpass.again ⟨hpass'.errors, hpass'.classes, hpass'.outside, hpass'.size⟩⟩

/-- A block is closed. -/
theorem leads_leave {blk : Block} (hne : Γ ≠ []) (hknows : ∀ c, Context.Knows (blk :: Γ) c → Γ.Knows c) :
    Leads p leave (blk :: Γ) Γ lo hi := by
  intro b hb
  refine ⟨⟨?_, fun c hc => hknows c (hb.current c hc), fun name info hi => ?_, fun he => (hb.clean he).pop hne⟩,
    .of_same List.prefix_rfl rfl rfl⟩
  · show b.scopes.pop = Γ.scopes
    rw [hb.scopes, Context.pop_scopes]
  · have := hb.classes name info hi
    rwa [Context.globals_cons _ hne] at this

/-- The declarations bind one after the other, and each leads to the context behind it. -/
def LeadsDecls (p : Program) (names : Names) (k n : Nat) : Prop :=
  ∀ (Γ : Context) (s t : Pos) (d : DeclRef), Γ ≠ [] → (Γ.depth = 0 → d ∈ p.declarations) → p.arena.DeclAt k n s d t →
    Leads p (decl p.arena names n d) Γ (Γ.bind p.arena [d]) s.nodes t.nodes

theorem leads_row (h : LeadsDecls p names k n) : ∀ {ds : List DeclRef} {Γ : Context} {s t : Pos}, Γ ≠ [] →
    (Γ.depth = 0 → ∀ d ∈ ds, d ∈ p.declarations) → Arena.Row (p.arena.DeclAt k n) s ds t →
    Leads p (ds.forM (decl p.arena names n)) Γ (Γ.bind p.arena ds) s.nodes t.nodes
  | [], Γ, s, t, _, _, hrow => by
    cases hrow
    rw [Context.bind_nil]
    exact leads_pure
  | d :: ds, Γ, s, t, hne, hglobal, ⟨m, hd, hrest⟩ => by
    have hfirst := h Γ s m d hne (fun h0 => hglobal h0 d List.mem_cons_self) hd
    have hothers := leads_row h (Context.bind_ne_nil p.arena [d] hne) (fun h0 d' hd' =>
      hglobal (by simpa using h0) d' (List.mem_cons_of_mem _ hd')) hrest
    rw [← Context.bind_append] at hothers
    exact hfirst.seq hothers hd.le.1 hrest.decls_nodes_le

/-- The inside of a function leads to the context behind its local declarations. -/
theorem leads_region (h : LeadsDecls p names k n) (hpost : p.arena.Postordered) (hk : k ≤ maxNesting)
    {ds : List DeclRef} {body : ExprRef} {s m t : Pos} (hne : Γ ≠ [])
    (hglobal : Γ.depth = 0 → ∀ d ∈ ds, d ∈ p.declarations) (hrow : Arena.Row (p.arena.DeclAt k n) s ds m)
    (hbody : p.arena.Fill k m [body] t) :
    Leads p (region p.arena names n ds body) Γ (Γ.bind p.arena ds) s.nodes t.nodes :=
  (leads_row h hne hglobal hrow).seq (leads_whole hpost hk hbody) hrow.decls_nodes_le hbody.nodes_le

/-- The type of a function is looked up before the function is entered. -/
def enterFunDecl (names : Names) (f : Function) : BindM Unit := do
  let _ ← checkType names f.location f.arrowType
  enterFunction names f .func

theorem decl_function {d : DeclRef} {f : Function} {a : Arena} (hx : a.decl? d = some (.funDecl f)) (b : Binder) :
    (decl a names (n + 1) d b).2 =
      ((do enterFunDecl names f; region a names n f.locals f.body; leave) b).2 := by
  obtain ⟨more, heq, -⟩ := checkType_spec names f.location b f.arrowType
  simp only [decl, hx, enterFunDecl, bind_run, heq, function_run]

theorem leads_enterFunDecl (f : Function) (hne : Γ ≠ []) :
    Leads p (enterFunDecl names f) Γ (f.block :: Γ.declareAll [f.declared .func]) lo hi := by
  intro b hb
  obtain ⟨more, heq, hknown⟩ := checkType_spec names f.location b f.arrowType
  have hb' : At p Γ { b with errors := b.errors ++ more } := hb.keep rfl rfl rfl (List.prefix_append _ _)
  simp only [enterFunDecl, bind_run, heq]
  have hmore : Passes lo hi b { b with errors := b.errors ++ more } := .of_same (List.prefix_append _ _) rfl rfl
  obtain ⟨hat, hpass⟩ := hb'.enterFunction names hne fun he c hc =>
    (hb.knows (hknown (List.append_eq_nil_iff.1 he).2 c hc)).declareAll
  exact ⟨hat, hmore.again hpass⟩

/-- A function is left, whatever it declared. -/
theorem leads_leaveFunction (f : Function) (a : Arena) (ds : List DeclRef) (hne : Γ ≠ []) :
    Leads p leave (Context.bind (f.block :: Γ) a ds) Γ lo hi :=
  leads_leave hne fun _ hc => (Context.knows_cons _ hne).1 hc

/-! ## Classes -/

/-- A class is declared behind its shape, its scope opened, and its fields declared. -/
def enterClass (names : Names) (c : Class) : BindM Unit := do
  modify fun b => { b with currentClass := some c.name }
  let _ ← classShape names c
  let _ ← declare names c.name c.shape.type .cls c.location
  modify fun b => { b with scopes := b.scopes.push (.empty (.cls c.name)) }
  declareAll names .field c.fields (c.fields.map fun x => x.ty.checked)

/-- A class is left; it is kept if its name was free. -/
def leaveClass (c : Class) (declared : Bool) : BindM Unit := do
  let scope := (← get).scopes.current?
  leave
  modify fun b => { b with currentClass := none }
  match declared, scope with
  | true, some scope => modify fun b => { b with classes := b.classes.insertNew c.name ⟨c.shape, scope⟩ }
  | _, _ => pure ()

/-- The methods of a class. -/
def methods (a : Arena) (names : Names) (n : Nat) (ms : List Function) : BindM Unit :=
  ms.forM fun m => function a names (decl a names n) m m.arrowType.checked .method

theorem mapM_checkType {α : Type} (names : Names) (place : α → Option Location) (ty : α → Ty) (b : Binder) : ∀ xs : List α, ∃ more,
    xs.mapM (fun x => checkType names (place x) (ty x)) b =
      (xs.map fun x => (ty x).checked, { b with errors := b.errors ++ more }) ∧
    (more = [] → ∀ c ∈ CheckedType.classesAll (xs.map fun x => (ty x).checked), b.knowsClass c = true)
  | [] => ⟨[], by simp, by simp [CheckedType.classesAll]⟩
  | x :: xs => by
    obtain ⟨more, hx, hknown⟩ := checkType_spec names (place x) b (ty x)
    obtain ⟨more', hxs, hknowns⟩ := mapM_checkType names place ty { b with errors := b.errors ++ more } xs
    refine ⟨more ++ more', ?_, fun hmore c hc => ?_⟩
    · simp only [List.mapM_cons, bind_run, hx, hxs, pure_run, List.map_cons, List.append_assoc]
    · obtain ⟨h, h'⟩ := List.append_eq_nil_iff.1 hmore
      rcases List.mem_append.1 hc with hc | hc
      · exact hknown h c hc
      · exact hknowns h' c hc

/-- The shape of a class is what its members are declared as. -/
theorem classShape_spec (names : Names) (c : Class) (b : Binder) : ∃ more,
    classShape names c b = (c.shape, { b with errors := b.errors ++ more }) ∧
    (more = [] → ∀ name ∈ c.shape.type.classes, b.knowsClass name = true) := by
  obtain ⟨more, hfields, hknown⟩ := mapM_checkType names (·.location) (·.ty) b c.fields
  obtain ⟨more', hmethods, hknown'⟩ := mapM_checkType names (·.location) (·.arrowType)
    { b with errors := b.errors ++ more } c.methods
  refine ⟨more ++ more', ?_, fun hmore name hname => ?_⟩
  · simp only [classShape, bind_run, hfields, hmethods, pure_run, List.append_assoc]
    rfl
  · obtain ⟨h, h'⟩ := List.append_eq_nil_iff.1 hmore
    rcases List.mem_append.1 hname with hname | hname
    · exact hknown h name hname
    · exact hknown' h' name hname

theorem declare_currentClass (names : Names) (d : Declared) (place : Option Location) (b : Binder) (cls : Option Symbol) :
    declare names d.name d.ty d.kind place { b with currentClass := cls } =
      ((declare names d.name d.ty d.kind place b).1,
        { (declare names d.name d.ty d.kind place b).2 with currentClass := cls }) := by
  unfold declare
  simp only [bind_run, get_run]
  cases b.scopes.declare d.name b.scopes.depth d.ty d.kind <;> rfl

/-- What the class being read adds to the known classes is its own name. -/
theorem knowsClass_current {b : Binder} {cls name : Symbol}
    (h : knowsClass { b with currentClass := some cls } name = true) : cls = name ∨ b.knowsClass name = true := by
  simp only [knowsClass, Bool.or_eq_true, beq_iff_eq, Option.some.injEq] at h ⊢
  tauto

/-- The inside of a class in front of its methods. -/
theorem leads_enterClass (c : Class) (hne : Γ ≠ []) (hdepth : Γ.depth = 0) :
    Leads p (enterClass names c) Γ (c.block [] :: Γ.declareAll [c.declared]) lo hi := by
  intro b hb
  obtain ⟨more, hshape, hknown⟩ := classShape_spec names c { b with currentClass := some c.name }
  have hmem : c.declared ∈ (Γ.declareAll [c.declared]).globals :=
    Context.mem_globals_of_depth hne hdepth List.mem_cons_self
  have hself : (Γ.declareAll [c.declared]).Knows c.name := ⟨c.declared, hmem, rfl, rfl⟩
  have hb' : At p Γ { b with errors := b.errors ++ more } := hb.keep rfl rfl rfl (List.prefix_append _ _)
  have hmore : Passes lo hi b { b with errors := b.errors ++ more } := .of_same (List.prefix_append _ _) rfl rfl
  obtain ⟨hat, hpass⟩ : At p (Γ.declareAll [c.declared])
      (declare names c.name c.shape.type .cls c.location { b with errors := b.errors ++ more }).2 ∧
        Passes lo hi { b with errors := b.errors ++ more }
          (declare names c.name c.shape.type .cls c.location { b with errors := b.errors ++ more }).2 := by
    refine hb'.declare names (d := c.declared) hne fun he name hname => ?_
    rcases knowsClass_current (hknown (List.append_eq_nil_iff.1 he).2 name hname) with rfl | h
    · exact hself
    · exact (hb.knows h).declareAll
  have hat' : At p (Γ.declareAll [c.declared])
      { (declare names c.name c.shape.type .cls c.location { b with errors := b.errors ++ more }).2 with
        currentClass := some c.name } :=
    ⟨hat.scopes, fun name hname => by cases hname; exact hself, hat.classes, hat.clean⟩
  have hne' : Γ.declareAll [c.declared] ≠ [] := Context.declareAll_ne_nil _ hne
  have hcur := declare_currentClass names c.declared c.location { b with errors := b.errors ++ more } (some c.name)
  dsimp only [Class.declared] at hcur
  simp only [enterClass, bind_run, modify_run, hshape, hcur]
  have hin := hat'.push hne' (.cls c.name)
  rw [Class.block_nil]
  obtain ⟨hat'', hpass'⟩ := hin.declareAll names (List.cons_ne_nil _ _) .field c.fields fun he x hx name hname => by
    obtain ⟨blk, hblk, hmem⟩ := Context.exists_mem_declareAll [c.declared] hne
    refine (Context.knows_cons _ hne').2 ((hat.clean he).known blk hblk _ (hmem _ List.mem_cons_self) name ?_)
    exact List.mem_append_left _ (CheckedType.mem_classesAll (List.mem_map_of_mem hx) hname)
  exact ⟨hat'', hmore.again (hpass.again ⟨hpass'.errors, hpass'.classes, hpass'.outside, hpass'.size⟩)⟩

/-- The type of a method was looked up with the shape of its class. -/
theorem leads_enterMethod {c : Class} {ms : List Function} {m : Function}
    (hdeclared : ∃ blk ∈ Γ, c.declared ∈ blk.declared) (hm : m ∈ c.methods) :
    Leads p (enterFunction names m .method) (c.block ms :: Γ) (m.block :: c.block (ms ++ [m]) :: Γ) lo hi := by
  intro b hb
  rw [Class.block_append]
  refine hb.enterFunction names (List.cons_ne_nil _ _) fun he name hname => ?_
  obtain ⟨blk, hblk, hmem⟩ := hdeclared
  refine Context.Knows.declareAll ((hb.clean he).known blk (List.mem_cons_of_mem _ hblk) _ hmem name ?_)
  exact List.mem_append_right _ (CheckedType.mem_classesAll (List.mem_map_of_mem hm) hname)

theorem leads_method (h : LeadsDecls p names k n) (hpost : p.arena.Postordered) (hk : k ≤ maxNesting) {c : Class}
    (hdeclared : ∃ blk ∈ Γ, c.declared ∈ blk.declared) {m : Function} {done : List Function} {s t : Pos}
    (hm : m ∈ c.methods) (hat : p.arena.FunctionAt k (p.arena.DeclAt k n) s m t) :
    Leads p (function p.arena names (decl p.arena names n) m m.arrowType.checked .method) (c.block done :: Γ)
      (c.block (done ++ [m]) :: Γ) s.nodes t.nodes := by
  have hle := hat.nodes_le
  obtain ⟨mid, hloc, hbody⟩ := hat
  have hdeep : Context.depth (m.block :: c.block (done ++ [m]) :: Γ) ≠ 0 := by simp [Context.depth]
  have henter : Leads p (enterFunction names m .method) (c.block done :: Γ)
      (m.block :: c.block (done ++ [m]) :: Γ) s.nodes s.nodes := leads_enterMethod hdeclared hm
  have hin := leads_region h hpost hk (List.cons_ne_nil _ _) (fun h0 => absurd h0 hdeep) hloc hbody
  have hleave : Leads p leave (Context.bind (m.block :: c.block (done ++ [m]) :: Γ) p.arena m.locals)
      (c.block (done ++ [m]) :: Γ) t.nodes t.nodes := leads_leaveFunction m p.arena m.locals (List.cons_ne_nil _ _)
  exact (henter.seq (hin.seq hleave hle (Nat.le_refl _)) (Nat.le_refl _) hle).congr fun b _ =>
    function_run p.arena m .method b

/-- The methods of a class bind one after the other. -/
theorem leads_methods (h : LeadsDecls p names k n) (hpost : p.arena.Postordered) (hk : k ≤ maxNesting) {c : Class}
    (hdeclared : ∃ blk ∈ Γ, c.declared ∈ blk.declared) :
    ∀ {ms done : List Function} {s t : Pos}, (∀ m ∈ ms, m ∈ c.methods) →
      Arena.Row (p.arena.FunctionAt k (p.arena.DeclAt k n)) s ms t →
      Leads p (methods p.arena names n ms) (c.block done :: Γ) (c.block (done ++ ms) :: Γ) s.nodes t.nodes
  | [], done, s, t, _, hrow => by
    cases hrow
    rw [List.append_nil]
    exact leads_pure
  | m :: ms, done, s, t, hmem, ⟨mid, hat, hrest⟩ => by
    have hfirst : Leads p (function p.arena names (decl p.arena names n) m m.arrowType.checked .method)
        (c.block done :: Γ) (c.block (done ++ [m]) :: Γ) s.nodes mid.nodes :=
      leads_method h hpost hk hdeclared (hmem m List.mem_cons_self) hat
    have hothers : Leads p (methods p.arena names n ms) (c.block (done ++ [m]) :: Γ)
        (c.block ((done ++ [m]) ++ ms) :: Γ) mid.nodes t.nodes :=
      leads_methods h hpost hk hdeclared (fun m' hm' => hmem m' (List.mem_cons_of_mem _ hm')) hrest
    rw [List.append_cons done m ms]
    exact hfirst.seq hothers hat.nodes_le hrest.functions_le

/-- A class is left. -/
theorem leads_leaveClass {c : Class} {d : DeclRef} (declared : Bool) (hne : Γ ≠ []) (hdepth : Γ.depth = 0)
    (hmem : c.declared ∈ Γ.globals) (hd : d ∈ p.declarations) (hx : p.arena.decl? d = some (.classDecl c)) :
    Leads p (leaveClass c declared) (c.block c.methods :: Γ) Γ lo hi := by
  intro b hb
  have hlen : Γ.length = 1 := by
    have := List.length_pos_of_ne_nil hne
    simp only [Context.depth] at hdepth
    omega
  have hscope : b.scopes.current? = some ((c.block c.methods).scope 1) := by
    rw [hb.scopes, ← hlen]
    rfl
  have hknows : ∀ c', Context.Knows (c.block c.methods :: Γ) c' → Γ.Knows c' := fun c' => (Context.knows_cons _ hne).1
  obtain ⟨hat, -⟩ : At p Γ (leave b).2 ∧ Passes lo hi b (leave b).2 := leads_leave hne hknows b hb
  have hclosed : At p Γ { (leave b).2 with currentClass := none } :=
    ⟨hat.scopes, fun _ h => by simp at h, hat.classes, hat.clean⟩
  simp only [leaveClass, bind_run, get_run, modify_run, hscope]
  cases declared with
  | false => exact ⟨hclosed, .of_same List.prefix_rfl rfl rfl⟩
  | true =>
    have hget := fun name => ClassTable.get?_insertNew b.classes c.name name ⟨c.shape, (c.block c.methods).scope 1⟩
    refine ⟨⟨hclosed.scopes, hclosed.current, fun name info hi => ?_, hclosed.clean⟩, List.prefix_rfl,
      fun hold => (hget _).trans (Option.or_eq_some_iff.2 (.inl hold)), fun _ _ => rfl, rfl⟩
    rcases Option.or_eq_some_iff.1 ((hget name).symm.trans hi) with hold | ⟨-, hnew⟩
    · exact hclosed.classes name info hold
    · split at hnew
      · cases hnew
        exact ⟨d, hd, c, hx, ‹_›, hmem, rfl⟩
      · cases hnew

/-- A class whose name was free is kept. -/
theorem get?_leaveClass {b : Binder} {c : Class} (hb : At p (c.block c.methods :: Γ) b) :
    ((leaveClass c true b).2.classes.get? c.name).isSome := by
  have hscope : b.scopes.current? = some ((c.block c.methods).scope Γ.length) := by
    rw [hb.scopes]
    rfl
  simp only [leaveClass, bind_run, get_run, modify_run, hscope]
  rw [ClassTable.get?_insertNew, if_pos rfl]
  cases ClassTable.get? _ c.name <;> rfl

/-- The methods with the types that the shape of their class has for them. -/
theorem forM_shape (c : Class) (g : Function → CheckedType → BindM Unit) :
    ((c.methods.zip c.shape.methods).forM fun (m, ty) => g m ty) = c.methods.forM fun m => g m m.arrowType.checked := by
  have hzip : ∀ ms : List Function, ms.zip (ms.map fun m => m.arrowType.checked) =
      ms.map fun m => (m, m.arrowType.checked) := by
    intro ms
    induction ms with
    | nil => rfl
    | cons m ms ih => simp [ih]
  rw [Class.shape, hzip, List.forM_eq_forM, List.forM_map, List.forM_eq_forM]

/-- A class is entered, its methods are bound, and it is left, however local declarations are bound. -/
theorem classBody_run (a : Arena) (bindLocal : DeclRef → BindM Unit) (c : Class) (b : Binder) :
    (classBody a names bindLocal c b).2 = ((do
      enterClass names c
      c.methods.forM fun m => function a names bindLocal m m.arrowType.checked .method
      leaveClass c (b.scopes.declare c.name b.scopes.depth c.shape.type .cls).isSome) b).2 := by
  obtain ⟨more, hshape, -⟩ := classShape_spec names c { b with currentClass := some c.name }
  have hname := declare_fst names c.declared c.location { b with currentClass := some c.name, errors := b.errors ++ more }
  dsimp only [Class.declared] at hname
  simp only [classBody, enterClass, bind_run, modify_run, hshape, hname]
  rw [← forM_shape c fun m ty => function a names bindLocal m ty .method]
  rfl

theorem decl_classDecl {a : Arena} {d : DeclRef} {c : Class} (hx : a.decl? d = some (.classDecl c)) (b : Binder) :
    decl a names (n + 1) d b = if b.scopes.depth = 0 then classBody a names (decl a names n) c b
      else report (.misplacedClass (names.text c.name)) c.location b := by
  have hrun : decl a names (n + 1) d b = (if b.scopes.depth = 0 then classBody a names (decl a names n) c
      else report (.misplacedClass (names.text c.name)) c.location) b := by
    rw [decl, hx]
    rfl
  rw [hrun]
  split <;> rfl

/-- A class at the outermost level is entered, its methods are bound, and it is left. -/
theorem decl_class_run {a : Arena} {d : DeclRef} {c : Class} (hx : a.decl? d = some (.classDecl c)) (b : Binder)
    (hdepth : b.scopes.depth = 0) : (decl a names (n + 1) d b).2 =
      ((do
        enterClass names c
        methods a names n c.methods
        leaveClass c (b.scopes.declare c.name 0 c.shape.type .cls).isSome) b).2 := by
  rw [decl_classDecl hx, if_pos hdepth, classBody_run, hdepth]
  rfl

variable (names n) in
/-- Whether the class is declared does not depend on what is bound inside it. -/
theorem decl_class {d : DeclRef} {c : Class} (hx : p.arena.decl? d = some (.classDecl c)) (hne : Γ ≠ [])
    (hdepth : Γ.depth = 0) : ∃ declared, (declared = true ↔ ¬Γ.Has c.name) ∧ ∀ b, b.scopes = Γ.scopes →
      (decl p.arena names (n + 1) d b).2 =
        ((do enterClass names c; methods p.arena names n c.methods; leaveClass c declared) b).2 := by
  refine ⟨(Γ.scopes.declare c.name 0 c.shape.type .cls).isSome, ?_, fun b hb => ?_⟩
  · rw [← hdepth]
    exact Context.isSome_declare hne c.declared
  · rw [decl_class_run hx b (by rw [hb, Context.depth_scopes, hdepth]), hb]

/-! ## Declarations -/

/-- What the declarations declare that are read at some place. -/
theorem bind_singleton {d : DeclRef} {ds : List Declared} (h : p.arena.declares Γ.depth d = ds) :
    Γ.bind p.arena [d] = Γ.declareAll ds := by
  simp [Context.bind, h]

/-- A variable is declared behind its initial value. -/
def declareVar (names : Names) (v : Variable) : BindM Unit := do
  let ty ← checkType names v.location v.ty
  let _ ← declare names v.name ty .var v.location

theorem decl_var {a : Arena} {d : DeclRef} {v : Variable} (hx : a.decl? d = some (.varDecl v)) :
    decl a names (n + 1) d = (do whole a names v.init; declareVar names v) := by
  rw [decl, hx]
  rfl

theorem leads_declareVar (v : Variable) (hne : Γ ≠ []) :
    Leads p (declareVar names v) Γ (Γ.declareAll [⟨v.name, .var, v.ty.checked⟩]) lo hi := by
  intro b hb
  obtain ⟨more, heq, hknown⟩ := checkType_spec names v.location b v.ty
  have hmore : Passes lo hi b { b with errors := b.errors ++ more } := .of_same (List.prefix_append _ _) rfl rfl
  have hb' : At p Γ { b with errors := b.errors ++ more } := hb.keep rfl rfl rfl (List.prefix_append _ _)
  obtain ⟨hat, hpass⟩ := hb'.declare names (d := ⟨v.name, .var, v.ty.checked⟩) hne
    fun he c hc => (hb.knows (hknown (List.append_eq_nil_iff.1 he).2 c hc)).declareAll
  simp only [declareVar, bind_run, heq]
  exact ⟨hat, hmore.again hpass⟩

theorem leads_varDecl (hpost : p.arena.Postordered) (hk : k ≤ maxNesting) {d : DeclRef} {v : Variable} {s t : Pos}
    (hne : Γ ≠ []) (hx : p.arena.decl? d = some (.varDecl v)) (hfill : p.arena.Fill k s [v.init] t) :
    Leads p (decl p.arena names (n + 1) d) Γ (Γ.bind p.arena [d]) s.nodes t.nodes := by
  have hinit : Leads p (whole p.arena names v.init) Γ Γ s.nodes t.nodes := leads_whole hpost hk hfill
  rw [decl_var hx, bind_singleton (Arena.declares_var hx _)]
  exact hinit.seq (leads_declareVar v hne) hfill.nodes_le (Nat.le_refl _)

theorem leads_funDecl (h : LeadsDecls p names k n) (hpost : p.arena.Postordered) (hk : k ≤ maxNesting) {d : DeclRef}
    {f : Function} {s t : Pos} (hne : Γ ≠ []) (hx : p.arena.decl? d = some (.funDecl f))
    (hat : p.arena.FunctionAt k (p.arena.DeclAt k n) s f t) :
    Leads p (decl p.arena names (n + 1) d) Γ (Γ.bind p.arena [d]) s.nodes t.nodes := by
  obtain ⟨m, hloc, hbody⟩ := hat
  have hdeep : Context.depth (f.block :: Γ.declareAll [f.declared .func]) ≠ 0 := by
    have := List.length_pos_of_ne_nil hne
    simp [Context.depth]
    omega
  have hle : s.nodes ≤ t.nodes := Nat.le_trans hloc.decls_nodes_le hbody.nodes_le
  have henter : Leads p (enterFunDecl names f) Γ (f.block :: Γ.declareAll [f.declared .func]) s.nodes s.nodes :=
    leads_enterFunDecl f hne
  have hin := leads_region h hpost hk (List.cons_ne_nil _ _) (fun h0 => absurd h0 hdeep) hloc hbody
  have hleave : Leads p leave (Context.bind (f.block :: Γ.declareAll [f.declared .func]) p.arena f.locals)
      (Γ.declareAll [f.declared .func]) t.nodes t.nodes := leads_leaveFunction f p.arena f.locals (Context.declareAll_ne_nil _ hne)
  rw [bind_singleton (Arena.declares_fun hx _)]
  exact (henter.seq (hin.seq hleave hle (Nat.le_refl _)) (Nat.le_refl _) hle).congr fun b _ => decl_function hx b

theorem leads_classDecl (h : LeadsDecls p names k n) (hpost : p.arena.Postordered) (hk : k ≤ maxNesting) {d : DeclRef}
    {c : Class} {s t : Pos} (hne : Γ ≠ []) (hglobal : Γ.depth = 0 → d ∈ p.declarations)
    (hx : p.arena.decl? d = some (.classDecl c)) (hat : Arena.Row (p.arena.FunctionAt k (p.arena.DeclAt k n)) s c.methods t) :
    Leads p (decl p.arena names (n + 1) d) Γ (Γ.bind p.arena [d]) s.nodes t.nodes := by
  by_cases hdepth : Γ.depth = 0
  · have hne' : Γ.declareAll [c.declared] ≠ [] := Context.declareAll_ne_nil _ hne
    have hmem : c.declared ∈ (Γ.declareAll [c.declared]).globals :=
      Context.mem_globals_of_depth hne hdepth List.mem_cons_self
    obtain ⟨blk, hblk, hin⟩ := Context.exists_mem_declareAll [c.declared] hne
    obtain ⟨declared, -, hrun⟩ := decl_class names n hx hne hdepth
    have henter : Leads p (enterClass names c) Γ (c.block [] :: Γ.declareAll [c.declared]) s.nodes s.nodes :=
      leads_enterClass c hne hdepth
    have hmethods : Leads p (methods p.arena names n c.methods) (c.block [] :: Γ.declareAll [c.declared])
        (c.block c.methods :: Γ.declareAll [c.declared]) s.nodes t.nodes :=
      leads_methods h hpost hk ⟨blk, hblk, hin _ List.mem_cons_self⟩ (fun _ hm => hm) hat
    have hleave : Leads p (leaveClass c declared) (c.block c.methods :: Γ.declareAll [c.declared])
        (Γ.declareAll [c.declared]) t.nodes t.nodes :=
      leads_leaveClass declared hne' (by simpa using hdepth) hmem (hglobal hdepth) hx
    have hle : s.nodes ≤ t.nodes := hat.functions_le
    rw [bind_singleton ((Arena.declares_class hx _).trans (if_pos hdepth))]
    exact (henter.seq (hmethods.seq hleave hle (Nat.le_refl _)) (Nat.le_refl _) hle).congr fun b hb => hrun b hb.scopes
  · rw [bind_singleton ((Arena.declares_class hx _).trans (if_neg hdepth)), Context.declareAll_nil]
    intro b hb
    rw [decl_classDecl hx, if_neg (by rw [hb.scopes, Context.depth_scopes]; exact hdepth)]
    exact ⟨hb.keep rfl rfl rfl (List.prefix_append _ _), .of_same (List.prefix_append _ _) rfl rfl⟩

/-- **Binding a declaration leads to the context behind it.** -/
theorem leads_decl (hpost : p.arena.Postordered) (hk : k ≤ maxNesting) : ∀ n, LeadsDecls p names k n := by
  intro n
  induction n with
  | zero => intro _ _ _ _ _ _ hd; exact hd.elim
  | succ n ih =>
    intro Γ s t d hne hglobal hd
    obtain ⟨x, hx⟩ := hd.exists_decl?
    cases x with
    | varDecl v => exact leads_varDecl (t := ⟨t.nodes, d.index⟩) hpost hk hne hx (hd.var hx)
    | funDecl f => exact leads_funDecl (t := ⟨t.nodes, d.index⟩) ih hpost hk hne hx (hd.function hx)
    | classDecl c => exact leads_classDecl (t := ⟨t.nodes, d.index⟩) ih hpost hk hne hglobal hx (hd.methods hx)

end Binder

end Fool
