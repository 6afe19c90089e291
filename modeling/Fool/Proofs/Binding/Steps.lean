import Fool.Proofs.Binding.Scopes
import Fool.Proofs.Binding.Walk

/-!
# What the steps of binding leave behind

A state of binding stands at a place (`At`) if its scopes are those of the context of the place, its classes are
classes of the program whose names are declared, and, unless there was a fault, no block declares a name twice and the
classes of the declared types are known. What comes behind a step only adds faults, and gives a meaning only to the
expressions between two numbers (`Passes`).
-/

namespace Fool

/-! ## Declared classes -/

mutual

/-- The classes that a type names. -/
def CheckedType.classes : CheckedType → List Symbol
  | .int | .bool | .null => []
  | .object name => [name]
  | .arrow params ret => CheckedType.classesAll params ++ ret.classes
  | .classOf _ fields methods => CheckedType.classesAll fields ++ CheckedType.classesAll methods

/-- The classes that several types name. -/
def CheckedType.classesAll : List CheckedType → List Symbol
  | [] => []
  | ty :: tys => ty.classes ++ CheckedType.classesAll tys

end

theorem CheckedType.mem_classesAll {c : Symbol} {ty : CheckedType} : ∀ {tys : List CheckedType}, ty ∈ tys →
    c ∈ ty.classes → c ∈ CheckedType.classesAll tys
  | _ :: _, hmem, hc => by
    rcases List.mem_cons.1 hmem with rfl | hmem
    · exact List.mem_append_left _ hc
    · exact List.mem_append_right _ (CheckedType.mem_classesAll hmem hc)

namespace Context

/-- What the outermost block declares. -/
def globals (Γ : Context) : List Declared := (Γ.getLast?.map Block.declared).getD []

/-- The name is declared as a class in the outermost block. -/
def Knows (Γ : Context) (name : Symbol) : Prop := ∃ d ∈ Γ.globals, d.name = name ∧ d.kind = .cls

/-- No block declares a name twice, and the classes that the types of the declarations name are declared. -/
structure Clean (Γ : Context) : Prop where
  distinct : ∀ b ∈ Γ, (b.declared.map (·.name)).Nodup
  known : ∀ b ∈ Γ, ∀ d ∈ b.declared, ∀ c ∈ d.ty.classes, Γ.Knows c

variable {Γ : Context}

theorem globals_cons (b : Block) (h : Γ ≠ []) : globals (b :: Γ) = Γ.globals := by
  cases Γ with
  | nil => exact absurd rfl h
  | cons b' Γ => rfl

theorem declareAll_ne_nil (ds : List Declared) (h : Γ ≠ []) : Γ.declareAll ds ≠ [] := by
  cases Γ with
  | nil => exact absurd rfl h
  | cons b Γ => exact List.cons_ne_nil _ _

theorem bind_ne_nil (a : Arena) (ds : List DeclRef) (h : Γ ≠ []) : Γ.bind a ds ≠ [] := declareAll_ne_nil _ h

@[simp] theorem bind_nil (Γ : Context) (a : Arena) : Γ.bind a [] = Γ := declareAll_nil Γ

theorem bind_append (Γ : Context) (a : Arena) (ds ds' : List DeclRef) :
    Γ.bind a (ds ++ ds') = (Γ.bind a ds).bind a ds' := by
  simp [bind, declareAll_append]

@[simp] theorem depth_bind (Γ : Context) (a : Arena) (ds : List DeclRef) : (Γ.bind a ds).depth = Γ.depth := by
  simp [bind]

theorem mem_globals_declareAll {ds : List Declared} {d : Declared} (h : d ∈ Γ.globals) :
    d ∈ (Γ.declareAll ds).globals := by
  cases Γ with
  | nil => exact h
  | cons b Γ =>
    cases Γ with
    | nil => exact List.mem_append_left ds h
    | cons b' Γ => exact h

/-- At the outermost level the declarations are global. -/
theorem mem_globals_of_depth {ds : List Declared} {d : Declared} (h : Γ ≠ []) (hdepth : Γ.depth = 0) (hd : d ∈ ds) :
    d ∈ (Γ.declareAll ds).globals := by
  cases Γ with
  | nil => exact absurd rfl h
  | cons b Γ =>
    cases Γ with
    | nil => exact List.mem_append_right _ hd
    | cons b' Γ => simp [depth] at hdepth

theorem Knows.declareAll {ds : List Declared} {c : Symbol} (h : Γ.Knows c) : (Γ.declareAll ds).Knows c :=
  h.imp fun _ hd => ⟨mem_globals_declareAll hd.1, hd.2⟩

theorem global?_scopes (Γ : Context) : Γ.scopes.global? = Γ.getLast?.map fun b => b.scope 0 := by
  induction Γ with
  | nil => rfl
  | cons b Γ ih =>
    cases Γ with
    | nil => rfl
    | cons b' Γ => exact ih

/-- The class that a name means in the outermost block. -/
theorem globalClass?_scopes (Γ : Context) (name : Symbol) :
    Γ.scopes.globalClass? name = (Γ.getLast?.bind fun b => b.meaning? 0 name).filter fun e => e.kind = .cls := by
  simp only [Scopes.globalClass?, global?_scopes]
  cases Γ.getLast? <;> simp

/-- A class that a name means in the outermost scope is declared there. -/
theorem knows_of_globalClass {name : Symbol} (h : (Γ.scopes.globalClass? name).isSome = true) : Γ.Knows name := by
  obtain ⟨entry, he⟩ := Option.isSome_iff_exists.1 h
  rw [globalClass?_scopes, Option.filter_eq_some_iff] at he
  obtain ⟨hentry, hkind⟩ := he
  obtain ⟨b, hb, hm⟩ := Option.bind_eq_some_iff.1 hentry
  obtain ⟨d, hd, rfl⟩ := Option.map_eq_some_iff.1 hm
  have hname := List.find?_some hd
  refine ⟨d, ?_, by simpa using hname, by simpa using hkind⟩
  rw [globals, hb]
  exact List.mem_of_find?_eq_some hd

theorem knows_cons {c : Symbol} (b : Block) (hne : Γ ≠ []) : Knows (b :: Γ) c ↔ Γ.Knows c := by
  unfold Knows
  rw [globals_cons b hne]

/-- What has just been declared stands in the innermost block. -/
theorem exists_mem_declareAll (ds : List Declared) (hne : Γ ≠ []) :
    ∃ b ∈ Γ.declareAll ds, ∀ d ∈ ds, d ∈ b.declared := by
  cases Γ with
  | nil => exact absurd rfl hne
  | cons b Γ => exact ⟨_, List.mem_cons_self, fun d hd => List.mem_append_right _ hd⟩

/-- A new name of a known type keeps the context clean. -/
theorem Clean.declare {d : Declared} (h : Γ.Clean) (hfree : ¬Γ.Has d.name)
    (hty : ∀ c ∈ d.ty.classes, (Γ.declareAll [d]).Knows c) : (Γ.declareAll [d]).Clean := by
  cases Γ with
  | nil => exact h
  | cons b Γ =>
    have hdeclare : declareAll (b :: Γ) [d] = { b with declared := b.declared ++ [d] } :: Γ := rfl
    refine ⟨?_, ?_⟩
    · intro b' hb'
      rcases List.mem_cons.1 (hdeclare ▸ hb') with rfl | hb'
      · have hnot : ∀ x ∈ b.declared, x.name ≠ d.name := fun x hx hxn => hfree ⟨b, rfl, x, hx, hxn⟩
        simp only [List.map_append, List.map_cons, List.map_nil]
        refine List.nodup_append.2 ⟨h.distinct b List.mem_cons_self, List.nodup_singleton _, ?_⟩
        intro x hx y hy
        obtain ⟨z, hz, rfl⟩ := List.mem_map.1 hx
        rw [List.mem_singleton.1 hy]
        exact hnot z hz
      · exact h.distinct b' (List.mem_cons_of_mem _ hb')
    · intro b' hb' d' hd' c hc
      rcases List.mem_cons.1 (hdeclare ▸ hb') with rfl | hb'
      · rcases List.mem_append.1 hd' with hd' | hd'
        · exact (h.known b List.mem_cons_self d' hd' c hc).declareAll
        · rw [List.mem_singleton.1 hd'] at hc
          exact hty c hc
      · exact (h.known b' (List.mem_cons_of_mem _ hb') d' hd' c hc).declareAll

/-- A new block keeps the context clean. -/
theorem Clean.push {kind : ScopeKind} (h : Γ.Clean) (hne : Γ ≠ []) : Clean (⟨kind, []⟩ :: Γ) := by
  refine ⟨?_, ?_⟩
  · intro b hb
    rcases List.mem_cons.1 hb with rfl | hb
    · exact List.nodup_nil
    · exact h.distinct b hb
  · intro b hb d hd c hc
    rcases List.mem_cons.1 hb with rfl | hb
    · cases hd
    · exact (knows_cons _ hne).2 (h.known b hb d hd c hc)

/-- The inner block of a clean context is closed. -/
theorem Clean.pop {b : Block} (h : Clean (b :: Γ)) (hne : Γ ≠ []) : Γ.Clean := by
  refine ⟨fun b' hb' => h.distinct b' (List.mem_cons_of_mem _ hb'), fun b' hb' d hd c hc => ?_⟩
  exact (knows_cons b hne).1 (h.known b' (List.mem_cons_of_mem _ hb') d hd c hc)

end Context

/-! ## Standing at a place -/

namespace Binder

/-- The state stands at a place with this context. -/
structure At (p : Program) (Γ : Context) (b : Binder) : Prop where
  scopes : b.scopes = Γ.scopes
  current : ∀ c, b.currentClass = some c → Γ.Knows c
  classes : ∀ name info, b.classes.get? name = some info → ∃ d ∈ p.declarations, ∃ c : Class,
    p.arena.decl? d = some (.classDecl c) ∧ c.name = name ∧ c.declared ∈ Γ.globals ∧
    info = ⟨c.shape, (c.block c.methods).scope 1⟩
  clean : b.errors = [] → Γ.Clean

/-- What comes behind only adds faults and classes, and gives a meaning only to expressions with numbers from `lo` to
`hi`. -/
structure Passes (lo hi : Nat) (b b' : Binder) : Prop where
  errors : b.errors <+: b'.errors
  classes : ∀ {name : Symbol} {info : ClassInfo}, b.classes.get? name = some info → b'.classes.get? name = some info
  outside : ∀ e : ExprRef, e.index < lo ∨ hi ≤ e.index → b'.resolutions.get? e = b.resolutions.get? e
  size : b'.resolutions.cells.size = b.resolutions.cells.size

theorem Passes.refl (lo hi : Nat) (b : Binder) : Passes lo hi b b := ⟨List.prefix_rfl, id, fun _ _ => rfl, rfl⟩

theorem Passes.mono {lo hi lo' hi' : Nat} {b b' : Binder} (h : Passes lo hi b b') (hlo : lo' ≤ lo) (hhi : hi ≤ hi') :
    Passes lo' hi' b b' where
  errors := h.errors
  classes := h.classes
  outside e he := h.outside e (by omega)
  size := h.size

theorem Passes.again {lo hi : Nat} {b b' b'' : Binder} (h : Passes lo hi b b') (h' : Passes lo hi b' b'') :
    Passes lo hi b b'' where
  errors := h.errors.trans h'.errors
  classes hi := h'.classes (h.classes hi)
  outside e he := (h'.outside e he).trans (h.outside e he)
  size := h'.size.trans h.size

theorem Passes.trans {lo mid hi : Nat} {b b' b'' : Binder} (h : Passes lo mid b b') (h' : Passes mid hi b' b'')
    (hlo : lo ≤ mid) (hhi : mid ≤ hi) : Passes lo hi b b'' :=
  (h.mono (Nat.le_refl lo) hhi).again (h'.mono hlo (Nat.le_refl hi))

theorem Passes.of_same {lo hi : Nat} {b b' : Binder} (herr : b.errors <+: b'.errors)
    (hres : b'.resolutions = b.resolutions) (hk : b'.classes = b.classes) : Passes lo hi b b' :=
  ⟨herr, fun hi => hk ▸ hi, fun _ _ => by rw [hres], by rw [hres]⟩

/-- What is done to a state that stands somewhere without touching its scopes and classes. -/
theorem At.keep {p : Program} {Γ : Context} {b b' : Binder} (h : At p Γ b) (hs : b'.scopes = b.scopes)
    (hk : b'.classes = b.classes) (hc : b'.currentClass = b.currentClass) (he : b.errors <+: b'.errors) :
    At p Γ b' where
  scopes := hs.trans h.scopes
  current c hcur := h.current c (hc ▸ hcur)
  classes name info hi := h.classes name info (hk ▸ hi)
  clean hempty := h.clean (List.prefix_nil.1 (hempty ▸ he))

/-! ## Types and names -/

variable {p : Program} {Γ : Context} {b : Binder} {names : Names} {lo hi : Nat}

@[simp] theorem bind_run {α β : Type} (m : BindM α) (f : α → BindM β) (b : Binder) :
    (m >>= f) b = f (m b).1 (m b).2 := rfl

@[simp] theorem map_run {α β : Type} (m : BindM α) (f : α → β) (b : Binder) : (f <$> m) b = (f (m b).1, (m b).2) := rfl

@[simp] theorem pure_run {α : Type} (x : α) (b : Binder) : (pure x : BindM α) b = (x, b) := rfl

@[simp] theorem get_run (b : Binder) : (get : BindM Binder) b = (b, b) := rfl

@[simp] theorem set_run (b b' : Binder) : (set b' : BindM Unit) b = ((), b') := rfl

@[simp] theorem modify_run (f : Binder → Binder) (b : Binder) : (modify f : BindM Unit) b = ((), f b) := rfl

@[simp] theorem report_run (cause : BindError.Cause) (place : Option Location) (b : Binder) :
    report cause place b = ((), { b with errors := b.errors ++ [⟨cause, place⟩] }) := rfl

/-- A class that is known at a place is declared, or it is being read. -/
theorem At.knows (h : At p Γ b) {c : Symbol} (hc : b.knowsClass c = true) : Γ.Knows c := by
  simp only [knowsClass, Bool.or_eq_true, beq_iff_eq] at hc
  rcases hc with (hc | hc) | hc
  · exact h.current c hc
  · obtain ⟨info, hinfo⟩ := Option.isSome_iff_exists.1 hc
    obtain ⟨_, _, c', _, hname, hmem, _⟩ := h.classes c info hinfo
    exact ⟨c'.declared, hmem, hname, rfl⟩
  · rw [h.scopes] at hc
    exact Context.knows_of_globalClass hc

/-- The faults of a type: the classes in it that are not known. -/
def unknowns (names : Names) (place : Option Location) (b : Binder) (classes : List Symbol) : List BindError :=
  (classes.filter fun c => !b.knowsClass c).map fun c => ⟨.unknownClass (names.text c), place⟩

theorem unknowns_append (names : Names) (place : Option Location) (b : Binder) (cs cs' : List Symbol) :
    unknowns names place b (cs ++ cs') = unknowns names place b cs ++ unknowns names place b cs' := by
  simp [unknowns]

mutual

/-- Looking up a type reports its unknown classes from left to right. -/
theorem checkType_run (names : Names) (place : Option Location) (b : Binder) : ∀ ty : Ty,
    checkType names place ty b =
      (ty.checked, { b with errors := b.errors ++ unknowns names place b ty.checked.classes })
  | .int => by simp [checkType, Ty.checked, CheckedType.classes, unknowns]
  | .bool => by simp [checkType, Ty.checked, CheckedType.classes, unknowns]
  | .object name => by
    by_cases hk : b.knowsClass name = true <;> simp [checkType, Ty.checked, CheckedType.classes, unknowns, hk]
  | .arrow params ret => by
    have hret := checkType_run names place
      { b with errors := b.errors ++ unknowns names place b (CheckedType.classesAll (Ty.checkedAll params)) } ret
    simp only [checkType, bind_run, checkTypes_run names place b params, hret, pure_run, Ty.checked,
      CheckedType.classes, unknowns_append, List.append_assoc]
    rfl

theorem checkTypes_run (names : Names) (place : Option Location) (b : Binder) : ∀ tys : List Ty,
    checkTypes names place tys b = (Ty.checkedAll tys,
      { b with errors := b.errors ++ unknowns names place b (CheckedType.classesAll (Ty.checkedAll tys)) })
  | [] => by simp [checkTypes, Ty.checkedAll, CheckedType.classesAll, unknowns]
  | ty :: tys => by
    have htys := checkTypes_run names place
      { b with errors := b.errors ++ unknowns names place b ty.checked.classes } tys
    simp only [checkTypes, bind_run, checkType_run names place b ty, htys, pure_run, Ty.checkedAll,
      CheckedType.classesAll, unknowns_append, List.append_assoc]
    rfl

end

/-- Looking up a type only adds faults; without a fault all its classes are known. -/
theorem checkType_spec (names : Names) (place : Option Location) (b : Binder) (ty : Ty) : ∃ more,
    checkType names place ty b = (ty.checked, { b with errors := b.errors ++ more }) ∧
    (more = [] → ∀ c ∈ ty.checked.classes, b.knowsClass c = true) := by
  refine ⟨_, checkType_run names place b ty, fun hnone c hc => ?_⟩
  simp only [unknowns, List.map_eq_nil_iff, List.filter_eq_nil_iff] at hnone
  simpa using hnone c hc

/-! ## Declaring names -/

variable (names) in
/-- What comes back from a declaration is whether the name is declared. -/
theorem declare_fst (d : Declared) (place : Option Location) (b : Binder) :
    (declare names d.name d.ty d.kind place b).1 = (b.scopes.declare d.name b.scopes.depth d.ty d.kind).isSome := by
  unfold declare
  simp only [bind_run, get_run]
  cases b.scopes.declare d.name b.scopes.depth d.ty d.kind <;> rfl

variable (names) in
/-- A name that is taken is reported. -/
theorem declare_run_taken (hs : b.scopes = Γ.scopes) {d : Declared} (hd : Γ.Has d.name) (place : Option Location) :
    declare names d.name d.ty d.kind place b = (false, { b with
      scopes := (Γ.declareAll [d]).scopes
      errors := b.errors ++ [⟨.duplicateDeclaration (names.text d.name), place⟩] }) := by
  obtain ⟨htaken, hsame⟩ := Context.declare_taken hd
  unfold declare
  simp [hs, htaken, hsame]

variable (names) in
/-- Any other name is declared. -/
theorem declare_run_free (hs : b.scopes = Γ.scopes) (hne : Γ ≠ []) {d : Declared} (hd : ¬Γ.Has d.name)
    (place : Option Location) :
    declare names d.name d.ty d.kind place b = (true, { b with scopes := (Γ.declareAll [d]).scopes }) := by
  obtain ⟨blk, Γ', rfl⟩ : ∃ blk Γ', Γ = blk :: Γ' := List.exists_cons_of_ne_nil hne
  obtain ⟨entry, hfree⟩ := Context.declare_free blk Γ' fun h => hd ⟨blk, rfl, h⟩
  have hdepth : Context.depth (blk :: Γ') = Γ'.length := rfl
  unfold declare
  simp [hs, hdepth, hfree]

variable (names) in
/-- Declaring a name that is taken adds a fault; any other name is declared. -/
theorem declare_spec (hs : b.scopes = Γ.scopes) (hne : Γ ≠ []) (d : Declared) (place : Option Location) :
    ∃ more, (declare names d.name d.ty d.kind place b).2 =
        { b with scopes := (Γ.declareAll [d]).scopes, errors := b.errors ++ more } ∧
      (more = [] ↔ ¬Γ.Has d.name) ∧ ((declare names d.name d.ty d.kind place b).1 = true ↔ more = []) := by
  by_cases hd : Γ.Has d.name
  · rw [declare_run_taken names hs hd]
    exact ⟨_, rfl, by simp [hd], by simp⟩
  · rw [declare_run_free names hs hne hd]
    exact ⟨[], by simp, by simp [hd], by simp⟩

variable (names) in
/-- Behind the declaration of a name of a known type. -/
theorem At.declare (h : At p Γ b) (hne : Γ ≠ []) {d : Declared} {place : Option Location}
    (hty : b.errors = [] → ∀ c ∈ d.ty.classes, (Γ.declareAll [d]).Knows c) :
    At p (Γ.declareAll [d]) (declare names d.name d.ty d.kind place b).2 ∧
      Passes lo hi b (declare names d.name d.ty d.kind place b).2 := by
  obtain ⟨more, heq, hmore, -⟩ := declare_spec names h.scopes hne d place
  rw [heq]
  refine ⟨⟨rfl, fun c hc => (h.current c hc).declareAll, fun name info hi => ?_, fun hempty => ?_⟩,
    .of_same (List.prefix_append _ _) rfl rfl⟩
  · obtain ⟨r, hr, c, hc, hname, hmem, hinfo⟩ := h.classes name info hi
    exact ⟨r, hr, c, hc, hname, Context.mem_globals_declareAll hmem, hinfo⟩
  · obtain ⟨hb, hm⟩ := List.append_eq_nil_iff.1 hempty
    exact (h.clean hb).declare (hmore.1 hm) (hty hb)

/-! ## Visiting expressions -/

@[simp] theorem resolve_run (e : ExprRef) (r : Resolution) (b : Binder) :
    resolve e r b = ((), { b with resolutions := b.resolutions.set e r }) := rfl

/-- A visit adds faults, and gives a meaning to the expression at most. -/
structure Touches (e : ExprRef) (b b' : Binder) : Prop where
  scopes : b'.scopes = b.scopes
  classes : b'.classes = b.classes
  currentClass : b'.currentClass = b.currentClass
  errors : b.errors <+: b'.errors
  others : ∀ e', e' ≠ e → b'.resolutions.get? e' = b.resolutions.get? e'
  size : b'.resolutions.cells.size = b.resolutions.cells.size

theorem Touches.refl (e : ExprRef) (b : Binder) : Touches e b b :=
  ⟨rfl, rfl, rfl, List.prefix_rfl, fun _ _ => rfl, rfl⟩

theorem resolveName_some {a : Arena} {e : ExprRef} {name : Symbol} {entry : Entry}
    (h : b.scopes.lookup? name = some entry) :
    resolveName a names e name b = (some ⟨entry, b.scopes.depth, none⟩,
      { b with resolutions := b.resolutions.set e ⟨entry, b.scopes.depth, none⟩ }) := by
  simp only [resolveName, bind_run, get_run, h, resolve_run, pure_run]

theorem resolveName_none {a : Arena} {e : ExprRef} {name : Symbol} (h : b.scopes.lookup? name = none) :
    resolveName a names e name b = (none,
      { b with errors := b.errors ++ [⟨.unresolvedIdentifier (names.text name), a.location? e⟩] }) := by
  simp only [resolveName, bind_run, get_run, h, report_run, pure_run]

variable (names) in
/-- A reference adds faults, and gives a meaning to its expression at most. -/
theorem refer_run (a : Arena) (e : ExprRef) (x : Expr) (b : Binder) : ∃ more,
    (refer a names e x b).2 = { b with errors := b.errors ++ more } ∨
      ∃ r, (refer a names e x b).2 = { b with errors := b.errors ++ more, resolutions := b.resolutions.set e r } := by
  cases x with
  | name name =>
    simp only [refer, resolveValue, bind_run]
    cases hl : b.scopes.lookup? name with
    | none => exact ⟨_, .inl (by rw [resolveName_none hl]; rfl)⟩
    | some entry =>
      rw [resolveName_some hl]
      by_cases hlocal : (entry.kind = .func ∨ entry.kind = .method) ∧ 0 < entry.depth
      · exact ⟨_, .inr ⟨_, by simp only [if_pos hlocal]; rfl⟩⟩
      · exact ⟨[], .inr ⟨_, by simp only [if_neg hlocal, List.append_nil]; rfl⟩⟩
  | call function args =>
    simp only [refer, bind_run]
    cases hl : b.scopes.lookup? function with
    | none => exact ⟨_, .inl (by rw [resolveName_none hl]; rfl)⟩
    | some entry => exact ⟨[], .inr ⟨_, by rw [resolveName_some hl, List.append_nil]; rfl⟩⟩
  | methodCall receiver method args =>
    rw [refer, resolveMethod, bind_run, get_run]
    dsimp only
    cases b.scopes.lookup? receiver with
    | none => exact ⟨_, .inl rfl⟩
    | some entry =>
      dsimp only
      cases entry.ty.className? with
      | none => exact ⟨_, .inl rfl⟩
      | some cls =>
        dsimp only
        by_cases hk : b.knowsClass cls = true
        · rw [if_pos hk]
          cases (b.member? cls method).filter fun m => m.kind = .method with
          | none => exact ⟨_, .inl rfl⟩
          | some m => exact ⟨[], .inr ⟨_, by rw [List.append_nil]; rfl⟩⟩
        · rw [if_neg hk]
          exact ⟨[], .inl (by rw [List.append_nil]; rfl)⟩
  | new name args =>
    simp only [refer, resolveNew, bind_run, get_run]
    cases b.scopes.globalClass? name with
    | none => exact ⟨_, .inl rfl⟩
    | some entry => exact ⟨[], .inr ⟨_, by rw [List.append_nil]; rfl⟩⟩
  | _ => exact ⟨[], .inl (by rw [List.append_nil]; rfl)⟩

theorem touches_refer (a : Arena) (e : ExprRef) (x : Expr) (b : Binder) : Touches e b (refer a names e x b).2 := by
  obtain ⟨more, h | ⟨r, h⟩⟩ := refer_run names a e x b
  · rw [h]
    exact ⟨rfl, rfl, rfl, List.prefix_append _ _, fun _ _ => rfl, rfl⟩
  · rw [h]
    refine ⟨rfl, rfl, rfl, List.prefix_append _ _, fun e' he => ?_, by simp [Resolutions.set]⟩
    rw [Resolutions.get?_set, if_neg fun h => he h.1.symm]

theorem touches_visit (a : Arena) (e : ExprRef) (b : Binder) : Touches e b (visit a names e b).2 := by
  unfold visit
  cases a.expr? e with
  | some x => exact touches_refer a e x b
  | none => exact Touches.refl e b

theorem At.touches {e : ExprRef} {b' : Binder} (h : At p Γ b) (ht : Touches e b b') : At p Γ b' :=
  h.keep ht.scopes ht.classes ht.currentClass ht.errors

theorem Touches.passes {e : ExprRef} {b' : Binder} (h : Touches e b b') (hlo : lo ≤ e.index) (hhi : e.index < hi) :
    Passes lo hi b b' where
  errors := h.errors
  classes hi := h.classes ▸ hi
  outside e' he := h.others e' fun heq => by subst heq; omega
  size := h.size

/-- Visits to expressions with numbers from `lo` to `hi`. -/
theorem At.visitAll {a : Arena} {es : List ExprRef} (h : At p Γ b) (hes : ∀ e ∈ es, lo ≤ e.index ∧ e.index < hi) :
    At p Γ (visitAll a names es b).2 ∧ Passes lo hi b (visitAll a names es b).2 := by
  induction es generalizing b with
  | nil => exact ⟨h, .refl lo hi b⟩
  | cons e es ih =>
    have ht : Touches e b (visit a names e b).2 := touches_visit a e b
    obtain ⟨hlo, hhi⟩ := hes e List.mem_cons_self
    obtain ⟨hat, hpass⟩ := ih (h.touches ht) fun e he => hes e (List.mem_cons_of_mem _ he)
    rw [visitAll_cons, bind_run]
    exact ⟨hat, (ht.passes hlo hhi).again hpass⟩

end Binder

end Fool
