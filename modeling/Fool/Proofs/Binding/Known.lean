import Fool.Proofs.Binding.Clean
import Fool.Proofs.Binding.Inside

/-!
# What is known at a place

In the contexts of a program (`fits_of_region`) a state that stands exactly at a place (`Stands`) knows the classes and
the methods that the context and the global declarations before it tell (`Stands.knowsClass`, `Stands.hasMethod`). So
what a visit to an expression reports is what is wrong with the name in it (`tells_visit`).
-/

namespace Fool

/-! ## Classes on the stack of scopes -/

/-- The class that a scope belongs to. -/
def ScopeKind.class? : ScopeKind → Option Symbol
  | .cls name => some name
  | .global | .function => none

/-- A name is declared first as what it means. -/
theorem Block.declares_iff {b : Block} (depth : Nat) {name : Symbol} {kind : EntryKind} :
    b.Declares name kind ↔ ∃ e, b.meaning? depth name = some e ∧ e.kind = kind := by
  constructor
  · rintro ⟨before, d, after, heq, hbefore, hname, hkind⟩
    exact ⟨_, Block.meaning?_eq_some.2 ⟨before, d, after, heq, hbefore, hname, rfl⟩, hkind⟩
  · rintro ⟨e, he, hkind⟩
    obtain ⟨before, d, after, heq, hbefore, hname, rfl⟩ := Block.meaning?_eq_some.1 he
    exact ⟨before, d, after, heq, hbefore, hname, hkind⟩

namespace Context

variable {Γ : Context} {name : Symbol}

/-- The class that is being read. -/
def class? (Γ : Context) : Option Symbol := (Γ.map Block.kind).findSome? ScopeKind.class?

theorem isSome_openClass? : (Γ.openClass? name).isSome = true ↔ .cls name ∈ Γ.map Block.kind := by
  simp [openClass?]

@[simp] theorem map_kind_declareAll (Γ : Context) (ds : List Declared) :
    (Γ.declareAll ds).map Block.kind = Γ.map Block.kind := by
  cases Γ <;> rfl

@[simp] theorem class?_declareAll (Γ : Context) (ds : List Declared) : (Γ.declareAll ds).class? = Γ.class? := by
  rw [class?, class?, map_kind_declareAll]

theorem isSome_globalClass? : (Γ.scopes.globalClass? name).isSome = true ↔ Γ.GlobalClass name := by
  rw [globalClass?_scopes, Option.isSome_iff_exists]
  simp only [Option.filter_eq_some_iff, Option.bind_eq_some_iff, decide_eq_true_eq, GlobalClass, Option.mem_def]
  constructor
  · rintro ⟨e, ⟨g, hg, he⟩, hkind⟩
    exact ⟨g, hg, (Block.declares_iff 0).2 ⟨e, he, hkind⟩⟩
  · rintro ⟨g, hg, hd⟩
    obtain ⟨e, he, hkind⟩ := (Block.declares_iff 0).1 hd
    exact ⟨e, ⟨g, hg, he⟩, hkind⟩

/-- What is global stays global. -/
theorem globals_declareAll_prefix (Γ : Context) (ds : List Declared) : Γ.globals <+: (Γ.declareAll ds).globals := by
  rcases Γ with _ | ⟨b, _ | ⟨b', Γ⟩⟩
  · exact List.prefix_rfl
  · exact List.prefix_append _ _
  · exact List.prefix_rfl

theorem globalClass_cons (b : Block) (hne : Γ ≠ []) : GlobalClass (b :: Γ) name ↔ Γ.GlobalClass name := by
  cases Γ with
  | nil => exact absurd rfl hne
  | cons b' Γ => rfl

/-- What a class that is open declares so far. -/
theorem declares_openClass? (Γ : Context) (cls name : Symbol) (kind : EntryKind) :
    (∃ e, (Γ.scopes.classScope? cls).bind (·.get? name) = some e ∧ e.kind = kind) ↔
      ∃ b ∈ Γ.openClass? cls, b.Declares name kind := by
  induction Γ with
  | nil => simp [scopes, stack, Scopes.classScope?, openClass?]
  | cons b Γ ih =>
    have hscope : (scopes (b :: Γ)).classScope? cls =
        if b.kind = .cls cls then some (b.scope Γ.length) else (scopes Γ).classScope? cls := by
      simp only [Scopes.classScope?, scopes, stack, List.find?_cons, Block.kind_scope]
      split <;> simp_all
    have hopen : openClass? (b :: Γ) cls = if b.kind = .cls cls then some b else openClass? Γ cls := by
      simp only [openClass?, List.find?_cons]
      split <;> simp_all
    rw [hscope, hopen]
    split
    · simp only [Option.bind_some, Block.get?_scope, Option.mem_def, Option.some.injEq, exists_eq_left',
        Block.declares_iff Γ.length]
    · exact ih

end Context

/-- A declaration declares its own name. -/
theorem Arena.name_of_mem_declares {a : Arena} {depth : Nat} {d : DeclRef} {D : Declared} (h : D ∈ a.declares depth d) :
    ∃ x, a.decl? d = some x ∧ x.name = D.name := by
  unfold declares at h
  cases hx : a.decl? d with
  | none => simp [hx] at h
  | some x =>
    refine ⟨x, rfl, ?_⟩
    rw [hx] at h
    cases x with
    | varDecl v => obtain rfl := List.mem_singleton.1 h; rfl
    | funDecl f => obtain rfl := List.mem_singleton.1 h; rfl
    | classDecl c =>
      dsimp only at h
      split at h
      · obtain rfl := List.mem_singleton.1 h; rfl
      · cases h

/-! ## Exact states at a place -/

namespace Binder

variable {p : Program} {Γ : Context} {b : Binder} {names : Names} {name cls : Symbol} {done : List DeclRef}
  {current : Option Symbol}

/-- The classes that have been read are global. -/
def Global (a : Arena) (done : List DeclRef) (Γ : Context) : Prop := ∀ name c, a.FirstClass done name c → Γ.GlobalClass name

theorem Exact.knowsClass_iff (h : Exact p.arena Γ done current b) (hdone : Global p.arena done Γ) :
    b.knowsClass name = true ↔ current = some name ∨ Γ.GlobalClass name := by
  have hcontains : b.classes.contains name = true → Γ.GlobalClass name := by
    intro hc
    obtain ⟨info, hinfo⟩ := Option.isSome_iff_exists.1 hc
    obtain ⟨c, hfirst, -⟩ := (h.classes name info).1 hinfo
    exact hdone name c hfirst
  simp only [knowsClass, Bool.or_eq_true, beq_iff_eq, h.current, h.scopes, Context.isSome_globalClass?]
  tauto

/-- What holds of the contexts in which references stand. -/
structure Fits (p : Program) (Γ : Context) : Prop where
  rooted : Γ.Rooted
  opened : ∀ name, Γ.class? = some name ↔ .cls name ∈ Γ.map Block.kind
  passed : (p.passed Γ).flatMap (p.arena.declares 0) <+: Γ.globals

/-- The state knows what is to be known at the place. -/
abbrev Stands (p : Program) (Γ : Context) : Binder → Prop := Exact p.arena Γ (p.passed Γ) Γ.class?

theorem Fits.global (h : Fits p Γ) : Global p.arena (p.passed Γ) Γ := by
  rintro name c ⟨before, d, after, hpassed, hbefore, hx, rfl⟩
  have hpre := h.passed
  rw [hpassed, List.flatMap_append, List.flatMap_cons, Arena.declares_class hx, if_pos rfl] at hpre
  obtain ⟨rest, hrest⟩ := hpre
  rw [List.append_assoc, List.append_assoc, List.singleton_append] at hrest
  cases hg : Γ.getLast? with
  | none => simp [Context.globals, hg] at hrest
  | some g =>
    rw [Context.globals, hg, Option.map_some, Option.getD_some] at hrest
    refine ⟨g, hg, _, c.declared, _, hrest.symm, fun D hD => ?_, rfl, rfl⟩
    obtain ⟨d', hd', hD⟩ := List.mem_flatMap.1 hD
    obtain ⟨x, hx', hname⟩ := Arena.name_of_mem_declares hD
    exact hname ▸ hbefore d' hd' x hx'

/-! ## The contexts of a program fit -/

/-- Inside a function or a class the global declarations that have been read stay the same. -/
theorem passed_declareAll (hdepth : Γ.depth ≠ 0) (ds : List Declared) : p.passed (Γ.declareAll ds) = p.passed Γ := by
  have hglobals : (Γ.declareAll ds).globals = Γ.globals := by
    rcases Γ with _ | ⟨blk, _ | ⟨blk', Γ⟩⟩
    · rfl
    · exact absurd rfl hdepth
    · rfl
  rw [Program.passed, Program.passed, Context.depth_declareAll, hglobals]

theorem passed_cons (blk : Block) (hdepth : Γ.depth ≠ 0) : p.passed (blk :: Γ) = p.passed Γ := by
  have hne : Γ ≠ [] := by rintro rfl; exact hdepth rfl
  have hdepth' : Context.depth (blk :: Γ) ≠ 0 := by simpa [Context.depth] using hne
  rw [Program.passed, Program.passed, if_neg hdepth, if_neg hdepth', Context.globals_cons _ hne]

/-- A declaration that is being read has not passed. -/
theorem passed_enter (blk : Block) (hne : Γ ≠ []) (D : Declared) : p.passed (blk :: Γ.declareAll [D]) = p.passed Γ := by
  by_cases hdepth : Γ.depth = 0
  · obtain ⟨g, rfl⟩ : ∃ g, Γ = [g] := by
      rcases Γ with _ | ⟨g, _ | ⟨b', Γ⟩⟩
      · exact absurd rfl hne
      · exact ⟨g, rfl⟩
      · simp [Context.depth] at hdepth
    simp [Program.passed, Context.depth, Context.globals, Context.declareAll]
  · rw [passed_cons _ (by simpa using hdepth), passed_declareAll hdepth]

/-- At the outermost level the declarations before the place have passed. -/
theorem passed_main {ds ds' : List DeclRef} (hds : p.declarations = ds ++ ds')
    (hall : ∀ d ∈ ds, (p.arena.decl? d).isSome) : p.passed (Context.bind [⟨.global, []⟩] p.arena ds) = ds := by
  have hone : ∀ d ∈ ds, (p.arena.declares 0 d).length = 1 := by
    intro d hd
    obtain ⟨x, hx⟩ := Option.isSome_iff_exists.1 (hall d hd)
    cases x with
    | varDecl v => rw [Arena.declares_var hx]; rfl
    | funDecl f => rw [Arena.declares_fun hx]; rfl
    | classDecl c => rw [Arena.declares_class hx]; rfl
  have hlen : (ds.flatMap (p.arena.declares 0)).length = ds.length := by
    clear hds hall
    induction ds with
    | nil => rfl
    | cons d ds ih =>
      rw [List.flatMap_cons, List.length_append, hone d List.mem_cons_self,
        ih fun d' hd' => hone d' (List.mem_cons_of_mem _ hd'), List.length_cons, Nat.add_comm]
  have hglobals : (Context.bind [⟨.global, []⟩] p.arena ds).globals = ds.flatMap (p.arena.declares 0) := rfl
  have hdepth : (Context.bind [⟨.global, []⟩] p.arena ds).depth = 0 := Context.depth_bind _ _ _
  rw [Program.passed, if_pos hdepth, hglobals, hlen, hds, List.take_left']
  rfl

namespace Fits

theorem declareAll (h : Fits p Γ) (hdepth : Γ.depth ≠ 0) (ds : List Declared) : Fits p (Γ.declareAll ds) where
  rooted := h.rooted.declareAll ds
  opened name := by rw [Context.class?_declareAll, Context.map_kind_declareAll]; exact h.opened name
  passed := by
    rw [passed_declareAll hdepth]
    exact h.passed.trans (Context.globals_declareAll_prefix Γ ds)

/-- Inside a function. -/
theorem function (h : Fits p Γ) {blk : Block} (hkind : blk.kind = .function) (D : Declared) :
    Fits p (blk :: Γ.declareAll [D]) where
  rooted := (h.rooted.declareAll [D]).cons (by rw [hkind]; exact ScopeKind.noConfusion)
  opened name := by
    have hopen := h.opened name
    simp only [Context.class?, List.map_cons, Context.map_kind_declareAll, hkind, List.findSome?_cons, ScopeKind.class?,
      List.mem_cons, reduceCtorEq, false_or] at hopen ⊢
    exact hopen
  passed := by
    rw [passed_enter blk h.rooted.ne_nil, Context.globals_cons _ (Context.declareAll_ne_nil _ h.rooted.ne_nil)]
    exact h.passed.trans (Context.globals_declareAll_prefix Γ [D])

/-- Inside a method of a class. -/
theorem method (h : Fits p Γ) (hdepth : Γ.depth = 0) {blk cblk : Block} {cls : Symbol} (hkind : blk.kind = .function)
    (hcls : cblk.kind = .cls cls) (D : Declared) : Fits p (blk :: cblk :: Γ.declareAll [D]) where
  rooted := ((h.rooted.declareAll [D]).cons (by rw [hcls]; exact ScopeKind.noConfusion)).cons
    (by rw [hkind]; exact ScopeKind.noConfusion)
  opened name := by
    have hglobal : Γ.map Block.kind = [.global] := by
      have hrooted := h.rooted
      rcases Γ with _ | ⟨g, _ | ⟨b', Γ⟩⟩
      · exact hrooted.elim
      · exact congrArg (fun k => [k]) hrooted
      · simp [Context.depth] at hdepth
    simp only [Context.class?, List.map_cons, Context.map_kind_declareAll, hglobal, hkind, hcls]
    show some cls = some name ↔ _
    simp [eq_comm]
  passed := by
    have hne := Context.declareAll_ne_nil [D] h.rooted.ne_nil
    have hdepth' : Context.depth (cblk :: Γ.declareAll [D]) ≠ 0 := by simpa [Context.depth] using h.rooted.ne_nil
    rw [passed_cons _ hdepth', passed_enter cblk h.rooted.ne_nil, Context.globals_cons _ (List.cons_ne_nil _ _),
      Context.globals_cons _ hne]
    exact h.passed.trans (Context.globals_declareAll_prefix Γ [D])

end Fits

/-- **The contexts of a program fit.** -/
theorem fits_of_region (hp : p.Placed) {all ds ds' : List DeclRef} {body : ExprRef} (hr : p.Region Γ all body)
    (hall : all = ds ++ ds') : Fits p (Γ.bind p.arena ds) := by
  induction hr generalizing ds ds' with
  | main =>
    obtain ⟨q, hrow, -⟩ := hp.row
    have hsome : ∀ d ∈ ds, (p.arena.decl? d).isSome := fun d hd => by
      obtain ⟨s, t, hat⟩ := hrow.imp_mem (hall ▸ List.mem_append_left _ hd)
      obtain ⟨x, hx⟩ := hat.exists_decl?
      rw [hx]
      rfl
    refine ⟨Context.Rooted.declareAll (Γ := [⟨.global, []⟩]) rfl _, fun name => ?_, ?_⟩
    · simp [Context.bind, Context.class?, ScopeKind.class?]
    · rw [passed_main hall hsome]
      exact List.prefix_refl _
  | function hr _ ih =>
    refine ((ih rfl).function rfl _).declareAll ?_ _
    simpa [Context.depth] using Context.bind_ne_nil p.arena _ hr.rooted.ne_nil
  | method _ _ hdepth _ ih =>
    exact ((ih rfl).method (by simpa using hdepth) rfl rfl _).declareAll (by simp [Context.depth]) _

/-! ## What a state knows -/

theorem Stands.knowsClass (h : Stands p Γ b) (hf : Fits p Γ) : b.knowsClass name = true ↔ Γ.KnowsClass name := by
  rw [h.knowsClass_iff hf.global, hf.opened, Context.KnowsClass, Context.isSome_openClass?, or_comm]

theorem Stands.hasMethod (h : Stands p Γ b) :
    (∃ m, (b.member? cls name).filter (fun m => m.kind = .method) = some m) ↔ p.HasMethod Γ cls name := by
  have hopen := Context.declares_openClass? Γ cls name .method
  simp only [Option.filter_eq_some_iff, decide_eq_true_eq, member?, ClassTable.member?, h.scopes]
  rw [Program.HasMethod]
  cases hget : b.classes.get? cls with
  | none =>
    have hnone : ∀ c, ¬p.ReadClass Γ cls c := fun c hc => by
      have := (h.classes cls _).2 ⟨c, hc, rfl⟩
      rw [hget] at this
      cases this
    simp only [Option.bind_none, Option.none_or, hopen]
    simp [hnone]
  | some info =>
    obtain ⟨c, hc, rfl⟩ := (h.classes cls info).1 hget
    have hsame : ∀ c', p.ReadClass Γ cls c' → (c'.block c'.methods).meaning? 1 name = (c.block c.methods).meaning? 1 name := by
      intro c' hc'
      have hget' := (h.classes cls _).2 ⟨c', hc', rfl⟩
      rw [hget] at hget'
      have hscope := congrArg (fun i : ClassInfo => i.scope.get? name) (Option.some.inj hget')
      simpa using hscope.symm
    simp only [Option.bind_some, Block.get?_scope]
    cases hm : (c.block c.methods).meaning? 1 name with
    | none =>
      rw [Option.none_or, hopen]
      constructor
      · exact fun hb => .inr ⟨fun c' hc' => Block.meaning?_eq_none.1 ((hsame c' hc').trans hm), hb⟩
      · rintro (⟨c', hc', hd⟩ | ⟨-, hb⟩)
        · obtain ⟨e, he, -⟩ := (Block.declares_iff 1).1 hd
          rw [hsame c' hc', hm] at he
          cases he
        · exact hb
    | some e =>
      rw [Option.some_or]
      constructor
      · rintro ⟨m, hme, hkind⟩
        exact .inl ⟨c, hc, (Block.declares_iff 1).2 ⟨m, hm.trans hme, hkind⟩⟩
      · rintro (⟨c', hc', hd⟩ | ⟨hnot, -⟩)
        · obtain ⟨e', he', hkind⟩ := (Block.declares_iff 1).1 hd
          exact ⟨e', hm.symm.trans ((hsame c' hc').symm.trans he'), hkind⟩
        · rw [Block.meaning?_eq_none.2 (hnot c hc)] at hm
          cases hm

/-! ## Visits -/

variable {a : Arena} {e : ExprRef} {x : Expr}

theorem Stands.lookup?_eq (h : Stands p Γ b) (hf : Fits p Γ) {entry : Entry} :
    b.scopes.lookup? name = some entry ↔ Γ.Means name entry := by
  rw [h.scopes, Context.lookup?_scopes, Context.lookup?_eq_some hf.rooted]

theorem Stands.lookup?_eq_none (h : Stands p Γ b) : b.scopes.lookup? name = none ↔ ∀ blk ∈ Γ, ¬blk.Has name := by
  rw [h.scopes, Context.lookup?_scopes, ← Option.not_isSome_iff_eq_none, Context.isSome_lookup?]
  simp

/-- What is wrong with an expression: one thing at most. -/
def Wrong (p : Program) (names : Names) (Γ : Context) (x : Expr) (cause? : Option BindError.Cause) : Prop :=
  ∀ cause, p.Misuse names Γ x cause ↔ cause? = some cause

theorem Stands.wrong_unresolved (h : Stands p Γ b) (hf : Fits p Γ) (hs : x.subject? = some name)
    (hl : b.scopes.lookup? name = none) : Wrong p names Γ x (some (.unresolvedIdentifier (names.text name))) := by
  have hno {entry : Entry} : ¬Γ.Means name entry := fun hm => by rw [(h.lookup?_eq hf).2 hm] at hl; cases hl
  refine fun cause => ⟨fun hm => ?_, ?_⟩
  · cases hm with
    | unresolved hs' _ => cases hs.symm.trans hs'; rfl
    | localFunctionValue hm _ _ => cases hs; exact absurd hm hno
    | notAnObject hm _ => cases hs; exact absurd hm hno
    | unknownMethod hm _ _ _ => cases hs; exact absurd hm hno
    | unknownClass _ => cases hs
  · rintro ⟨⟩
    exact .unresolved hs (h.lookup?_eq_none.1 hl)

section Meaning

variable {entry : Entry} {cause : BindError.Cause} {args : List ExprRef}

theorem Stands.not_unresolved (h : Stands p Γ b) (hl : b.scopes.lookup? name = some entry) :
    ¬∀ blk ∈ Γ, ¬blk.Has name := fun hno => by rw [h.lookup?_eq_none.2 hno] at hl; cases hl

theorem Stands.means_unique (h : Stands p Γ b) (hf : Fits p Γ) (hl : b.scopes.lookup? name = some entry)
    {entry' : Entry} (hm : Γ.Means name entry') : entry' = entry :=
  Option.some.inj (((h.lookup?_eq hf).2 hm).symm.trans hl)

/-- A name that has a meaning is wrong as a value if it means a local function. -/
theorem Stands.misuse_name (h : Stands p Γ b) (hf : Fits p Γ) (hl : b.scopes.lookup? name = some entry) :
    p.Misuse names Γ (.name name) cause ↔
      ((entry.kind = .func ∨ entry.kind = .method) ∧ 0 < entry.depth) ∧
        cause = .localFunctionValue (names.text name) := by
  constructor
  · intro hm
    cases hm with
    | unresolved hs hno => cases hs; exact absurd hno (h.not_unresolved hl)
    | localFunctionValue hm hk hd =>
      obtain rfl := h.means_unique hf hl hm
      exact ⟨⟨hk, hd⟩, rfl⟩
  · rintro ⟨⟨hk, hd⟩, rfl⟩
    exact .localFunctionValue ((h.lookup?_eq hf).1 hl) hk hd

/-- A function that is called only has to have a meaning. -/
theorem Stands.not_misuse_call (h : Stands p Γ b) (hl : b.scopes.lookup? name = some entry) :
    ¬p.Misuse names Γ (.call name args) cause := by
  intro hm
  cases hm with
  | unresolved hs hno => cases hs; exact absurd hno (h.not_unresolved hl)

/-- A receiver that has a meaning is wrong if it means no object, or an object of a known class without the method. -/
theorem Stands.misuse_methodCall (h : Stands p Γ b) (hf : Fits p Γ) {receiver method : Symbol}
    (hl : b.scopes.lookup? receiver = some entry) :
    p.Misuse names Γ (.methodCall receiver method args) cause ↔
      (∀ cls, entry.ty ≠ .object cls) ∧ cause = .notAnObject (names.text receiver) ∨
      ∃ cls, entry.ty = .object cls ∧ Γ.KnowsClass cls ∧ ¬p.HasMethod Γ cls method ∧
        cause = .unknownMethod (names.text cls) (names.text method) := by
  constructor
  · intro hm
    cases hm with
    | unresolved hs hno => cases hs; exact absurd hno (h.not_unresolved hl)
    | notAnObject hm hno =>
      obtain rfl := h.means_unique hf hl hm
      exact .inl ⟨hno, rfl⟩
    | unknownMethod hm hobj hknown hnot =>
      obtain rfl := h.means_unique hf hl hm
      exact .inr ⟨_, hobj, hknown, hnot, rfl⟩
  · have hmeans := (h.lookup?_eq hf).1 hl
    rintro (⟨hno, rfl⟩ | ⟨cls, hobj, hknown, hnot, rfl⟩)
    · exact .notAnObject hmeans hno
    · exact .unknownMethod hmeans hobj hknown hnot

end Meaning

/-- The state reports what is wrong with the expression. -/
def Refers (p : Program) (names : Names) (Γ : Context) (e : ExprRef) (x : Expr) (b : Binder) : Prop :=
  ∃ cause?, Wrong p names Γ x cause? ∧
    (refer p.arena names e x b).2.errors = b.errors ++ (cause?.map fun c => ⟨c, p.arena.location? e⟩).toList

theorem Stands.refers_name (h : Stands p Γ b) (hf : Fits p Γ) : Refers p names Γ e (.name name) b := by
  cases hl : b.scopes.lookup? name with
  | none =>
    refine ⟨_, h.wrong_unresolved hf rfl hl, ?_⟩
    simp only [refer, resolveValue, bind_run, resolveName_none hl, pure_run]
    rfl
  | some entry =>
    by_cases hlocal : (entry.kind = .func ∨ entry.kind = .method) ∧ 0 < entry.depth
    · refine ⟨some (.localFunctionValue (names.text name)), fun cause => ?_, ?_⟩
      · rw [h.misuse_name hf hl, and_iff_right hlocal, Option.some.injEq, eq_comm]
      · simp only [refer, resolveValue, bind_run, resolveName_some hl, if_pos hlocal]
        rfl
    · refine ⟨none, fun cause => ?_, ?_⟩
      · simp [h.misuse_name hf hl, hlocal]
      · simp only [refer, resolveValue, bind_run, resolveName_some hl, if_neg hlocal, pure_run]
        simp

theorem Stands.refers_call (h : Stands p Γ b) (hf : Fits p Γ) {args : List ExprRef} :
    Refers p names Γ e (.call name args) b := by
  cases hl : b.scopes.lookup? name with
  | none =>
    refine ⟨_, h.wrong_unresolved hf rfl hl, ?_⟩
    simp only [refer, bind_run, resolveName_none hl, pure_run]
    rfl
  | some entry =>
    refine ⟨none, fun cause => ?_, ?_⟩
    · simp [h.not_misuse_call hl]
    · simp only [refer, bind_run, resolveName_some hl, pure_run]
      simp

theorem Stands.refers_methodCall (h : Stands p Γ b) (hf : Fits p Γ) {receiver method : Symbol} {args : List ExprRef} :
    Refers p names Γ e (.methodCall receiver method args) b := by
  unfold Refers
  rw [refer, resolveMethod, bind_run, get_run]
  dsimp only
  cases hl : b.scopes.lookup? receiver with
  | none => exact ⟨_, h.wrong_unresolved hf rfl hl, rfl⟩
  | some entry =>
    dsimp only
    cases hty : entry.ty.className? with
    | none =>
      have hno : ∀ cls, entry.ty ≠ .object cls := fun cls hcls => by rw [hcls] at hty; cases hty
      exact ⟨some (.notAnObject (names.text receiver)), fun cause => by simp [h.misuse_methodCall hf hl, hno, eq_comm], rfl⟩
    | some cls =>
      have hobj : entry.ty = .object cls := by
        cases hent : entry.ty <;> rw [hent] at hty <;> cases hty
        rfl
      dsimp only
      by_cases hk : b.knowsClass cls = true
      · have hknown := (h.knowsClass hf).1 hk
        rw [if_pos hk]
        cases hmember : (b.member? cls method).filter fun m => m.kind = .method with
        | none =>
          have hnot : ¬p.HasMethod Γ cls method := fun hmethod => by
            obtain ⟨m, hm⟩ := h.hasMethod.2 hmethod
            rw [hmember] at hm
            cases hm
          exact ⟨some (.unknownMethod (names.text cls) (names.text method)),
            fun cause => by simp [h.misuse_methodCall hf hl, hobj, hknown, hnot, eq_comm], rfl⟩
        | some m =>
          have hmethod := h.hasMethod.1 ⟨m, hmember⟩
          exact ⟨none, fun cause => by simp [h.misuse_methodCall hf hl, hobj, hmethod], by simp⟩
      · have hunknown : ¬Γ.KnowsClass cls := fun hknown => hk ((h.knowsClass hf).2 hknown)
        rw [if_neg hk]
        exact ⟨none, fun cause => by simp [h.misuse_methodCall hf hl, hobj, hunknown], by simp⟩

theorem Stands.refers_new (h : Stands p Γ b) {args : List ExprRef} : Refers p names Γ e (.new cls args) b := by
  have hglobal : (b.scopes.globalClass? cls).isSome = true ↔ Γ.GlobalClass cls := by
    rw [h.scopes, Context.isSome_globalClass?]
  unfold Refers
  rw [refer, resolveNew, bind_run, get_run]
  cases hg : b.scopes.globalClass? cls with
  | none =>
    refine ⟨some (.unknownClass (names.text cls)), fun cause => ⟨fun hm => ?_, ?_⟩, rfl⟩
    · cases hm with
      | unresolved hs _ => cases hs
      | unknownClass _ => rfl
    · rintro ⟨⟩
      refine .unknownClass fun hcls => ?_
      have := hglobal.2 hcls
      rw [hg] at this
      cases this
  | some entry =>
    refine ⟨none, fun cause => ⟨fun hm => ?_, ?_⟩, by simp⟩
    · cases hm with
      | unresolved hs _ => cases hs
      | unknownClass hno => exact absurd (hglobal.1 (by rw [hg]; rfl)) hno
    · rintro ⟨⟩

/-- **What a visit reports is what is wrong with the expression.** -/
theorem Stands.refers (h : Stands p Γ b) (hf : Fits p Γ) : Refers p names Γ e x b := by
  cases x with
  | name name => exact h.refers_name hf
  | call function args => exact h.refers_call hf
  | methodCall receiver method args => exact h.refers_methodCall hf
  | new name args => exact h.refers_new
  | _ =>
    refine ⟨none, fun cause => ⟨fun hm => ?_, ?_⟩, ?_⟩
    · cases hm with
      | unresolved hs _ => cases hs
    · rintro ⟨⟩
    · simp [refer]

variable (names) in
/-- A visit reports what is wrong with its expression. -/
theorem tells_visit (hf : Fits p Γ) (e : ExprRef) :
    Tells (Stands p Γ) (visit p.arena names e) (Stands p Γ) (p.misused names Γ e) := by
  intro b hb
  have ht : Touches e b (visit p.arena names e b).2 := touches_visit p.arena e b
  refine ⟨hb.to (ht.scopes.trans hb.scopes) ht.currentClass ht.classes, ?_⟩
  cases hx : p.arena.expr? e with
  | none =>
    refine ⟨[], lists_nil ?_, by simp [visit, hx]⟩
    rintro sp err ⟨x, _, hx', -⟩
    cases hx.symm.trans hx'
  | some x =>
    obtain ⟨cause?, hwrong, herr⟩ : Refers p names Γ e x b := hb.refers hf
    rw [visit_eq hx, herr]
    refine ⟨(cause?.map fun c => (Spot.reference e, ⟨c, p.arena.location? e⟩)).toList, ?_, by cases cause? <;> rfl⟩
    have hone : ∀ sp err, p.misused names Γ e sp err ↔
        ∃ cause, cause? = some cause ∧ sp = .reference e ∧ err = ⟨cause, p.arena.location? e⟩ := by
      have hiff : ∀ cause, p.Misuse names Γ x cause ↔ cause? = some cause := hwrong
      simp [Program.misused, hx, hiff]
    cases cause? with
    | none => exact lists_nil fun sp err h => by obtain ⟨_, hc, -⟩ := (hone sp err).1 h; cases hc
    | some cause => exact (lists_singleton _ _).congr fun sp err => by simp [hone]

variable (names) in
theorem tells_visitAll (hf : Fits p Γ) {es : List ExprRef} (hes : es.Nodup) :
    Tells (Stands p Γ) (visitAll p.arena names es) (Stands p Γ) (Faults.eachOf es fun _ e => p.misused names Γ e) := by
  refine tells_forM (Q := fun _ => Stands p Γ) (fun _ e _ _ => tells_visit names hf e) ?_
  rintro before e after before' e' after' sp err err' rfl heq ⟨_, _, _, _, rfl, _⟩ ⟨_, _, _, _, hsp, _⟩
  cases hsp
  have hfirst : (before ++ e :: after)[before.length]? = some e := by simp
  have hsecond : (before ++ e :: after)[before'.length]? = some e := by simp [heq]
  exact (List.getElem?_inj (by simp) hes).1 (hfirst.trans hsecond.symm)

end Binder

end Fool
