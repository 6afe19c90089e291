import Fool.Proofs.Binding.Effects

/-!
# What binding leaves as it was

An expression is bound without a change to the scopes, the classes or the class that is being read; it only adds faults
and gives meanings to the expressions that are reached from it (`expr_frames`). A declaration changes the innermost scope
at most, where it declares its name (`decl_outcome`): whatever is opened inside it is closed again, and a class that is
declared comes into the table with the scope that declares its members, nothing else does. This holds of trees of any
kind, also of those that share expressions, refer to nothing or are nested too deep.
-/

namespace Fool

/-! ## What is reached -/

/-- The expressions that are reached from an expression. -/
inductive Arena.Below (a : Arena) : ExprRef → ExprRef → Prop
  | self {e : ExprRef} : Below a e e
  | part {e part e' : ExprRef} {x : Expr} : a.expr? e = some x → part ∈ x.parts → Below a part e' → Below a e e'

theorem Arena.Below.trans {a : Arena} {e e' e'' : ExprRef} (h : a.Below e e') (h' : a.Below e' e'') : a.Below e e'' := by
  induction h with
  | self => exact h'
  | part hx hp _ ih => exact .part hx hp (ih h')

/-- The expressions that are reached from a declaration. -/
def Arena.Reaches (a : Arena) (d : DeclRef) (e : ExprRef) : Prop := ∃ w, a.WholeOf d w ∧ a.Below w e

/-- Whatever a walk down the left operands finds is reached. -/
theorem Arena.leftSpineFrom_below (a : Arena) (follow : Operator → Bool) (n : Nat) : ∀ e : ExprRef,
    a.Below e (a.leftSpineFrom follow n e []).1 ∧ ∀ r ∈ (a.leftSpineFrom follow n e []).2, a.Below e r.2 := by
  induction n with
  | zero => exact fun e => ⟨.self, fun r hr => by cases hr⟩
  | succ n ih =>
    intro e
    rcases a.stop_or_follow follow e with hstop | ⟨op, left, right, hx, hop⟩
    · rw [leftSpineFrom_stop hstop]
      exact ⟨.self, fun r hr => by cases hr⟩
    · obtain ⟨hend, hrest⟩ := ih left
      rw [leftSpineFrom_follow hx hop, leftSpineFrom_append]
      refine ⟨.part hx List.mem_cons_self hend, fun r hr => ?_⟩
      rcases List.mem_append.1 hr with hr | hr
      · exact .part hx List.mem_cons_self (hrest r hr)
      · cases List.mem_singleton.1 hr
        exact .part hx (List.mem_cons_of_mem _ List.mem_cons_self) .self

/-! ## Scopes behind a declaration -/

/-- The scope behind a declaration; a name that is taken is not declared. -/
def Scope.declared (s : Scope) (depth : Nat) (D : Declared) : Scope :=
  ((s.declare D.name depth D.ty D.kind).map (·.2)).getD s

/-- The scopes behind a declaration in the innermost of them. -/
def Scopes.declared (s : Scopes) (D : Declared) : Scopes := ((s.declare D.name s.depth D.ty D.kind).map (·.2)).getD s

namespace Scopes

variable (s : Scopes) (D : Declared)

theorem declared_push (scope : Scope) : (s.push scope).declared D = s.push (scope.declared s.stack.length D) := by
  have hdepth : (s.push scope).depth = s.stack.length := rfl
  have hpush : (s.push scope).declare D.name s.stack.length D.ty D.kind =
      (scope.declare D.name s.stack.length D.ty D.kind).map fun r => (r.1, s.push r.2) := rfl
  rw [declared, Scope.declared, hdepth, hpush]
  cases scope.declare D.name s.stack.length D.ty D.kind <;> rfl

/-- Some scopes with an innermost one. -/
theorem exists_push {s : Scopes} (h : s.stack ≠ []) : ∃ outer scope, s = push outer scope := by
  obtain ⟨scope, outer, hs⟩ := List.exists_cons_of_ne_nil h
  exact ⟨⟨outer⟩, scope, by cases s; cases hs; rfl⟩

/-- Only the innermost scope can have changed. -/
structure Within (s s' : Scopes) : Prop where
  pop : s'.pop = s.pop
  length : s'.stack.length = s.stack.length

theorem Within.refl : s.Within s := ⟨rfl, rfl⟩

theorem Within.trans {s s' s'' : Scopes} (h : s.Within s') (h' : s'.Within s'') : s.Within s'' :=
  ⟨h'.pop.trans h.pop, h'.length.trans h.length⟩

theorem Within.depth {s s' : Scopes} (h : s.Within s') : s'.depth = s.depth := by
  rw [Scopes.depth, h.length, Scopes.depth]

theorem within_declared : s.Within (s.declared D) := by
  by_cases hs : s.stack = []
  · have hnone : s.declare D.name s.depth D.ty D.kind = none := by rw [declare, hs]
    rw [declared, hnone]
    exact .refl s
  · obtain ⟨outer, scope, rfl⟩ := exists_push hs
    rw [declared_push]
    exact ⟨rfl, rfl⟩

theorem within_foldl (Ds : List Declared) : s.Within (Ds.foldl declared s) := by
  induction Ds generalizing s with
  | nil => exact .refl s
  | cons D Ds ih => exact (s.within_declared D).trans (ih _)

theorem foldl_declared_push (scope : Scope) (Ds : List Declared) :
    Ds.foldl declared (s.push scope) = s.push (Ds.foldl (fun scope D => scope.declared s.stack.length D) scope) := by
  induction Ds generalizing scope with
  | nil => rfl
  | cons D Ds ih => rw [List.foldl_cons, List.foldl_cons, declared_push, ih]

end Scopes

namespace Binder

variable {a : Arena} {names : Names} {n : Nat} {R T : ExprRef → Prop} {b b' b'' : Binder}
  {S S' S'' : Scopes → Scopes → Prop}

/-! ## What is kept -/

/-- Faults are added, and among the expressions with `R` some are given a meaning. No meaning is taken back. -/
structure Adds (R : ExprRef → Prop) (b b' : Binder) : Prop where
  errors : b.errors <+: b'.errors
  resolved : ∀ e, (b.resolutions.get? e).isSome → (b'.resolutions.get? e).isSome
  others : ∀ e, ¬R e → b'.resolutions.get? e = b.resolutions.get? e
  size : b'.resolutions.cells.size = b.resolutions.cells.size

/-- Besides, the classes and the class that is being read are the same; `S` says what has become of the scopes. -/
structure Keeps (S : Scopes → Scopes → Prop) (R : ExprRef → Prop) (b b' : Binder) : Prop extends Adds R b b' where
  scopes : S b.scopes b'.scopes
  classes : b'.classes = b.classes
  currentClass : b'.currentClass = b.currentClass

theorem Adds.of_same (he : b.errors <+: b'.errors) (hr : b'.resolutions = b.resolutions) : Adds R b b' :=
  ⟨he, fun _ h => hr ▸ h, fun _ _ => by rw [hr], by rw [hr]⟩

theorem Adds.trans (h : Adds R b b') (h' : Adds R b' b'') : Adds R b b'' where
  errors := h.errors.trans h'.errors
  resolved e he := h'.resolved e (h.resolved e he)
  others e he := (h'.others e he).trans (h.others e he)
  size := h'.size.trans h.size

theorem Adds.mono (h : Adds R b b') (hR : ∀ e, R e → T e) : Adds T b b' where
  errors := h.errors
  resolved := h.resolved
  others e he := h.others e fun h => he (hR e h)
  size := h.size

theorem Keeps.of_same (he : b.errors <+: b'.errors) (hr : b'.resolutions = b.resolutions) (hs : S b.scopes b'.scopes)
    (hk : b'.classes = b.classes) (hc : b'.currentClass = b.currentClass) : Keeps S R b b' :=
  ⟨.of_same he hr, hs, hk, hc⟩

theorem Keeps.trans (h : Keeps S R b b') (h' : Keeps S' R b' b'') (hS : S b.scopes b'.scopes → S' b'.scopes b''.scopes →
    S'' b.scopes b''.scopes) : Keeps S'' R b b'' :=
  ⟨h.toAdds.trans h'.toAdds, hS h.scopes h'.scopes, h'.classes.trans h.classes, h'.currentClass.trans h.currentClass⟩

theorem Keeps.mono (h : Keeps S R b b') (hR : ∀ e, R e → T e) : Keeps S T b b' :=
  ⟨h.toAdds.mono hR, h.scopes, h.classes, h.currentClass⟩

/-- No scope has changed either. -/
abbrev Frames (R : ExprRef → Prop) (b b' : Binder) : Prop := Keeps (fun s s' => s' = s) R b b'

theorem Frames.refl (R : ExprRef → Prop) (b : Binder) : Frames R b b := .of_same List.prefix_rfl rfl rfl rfl rfl

theorem Frames.trans (h : Frames R b b') (h' : Frames R b' b'') : Frames R b b'' :=
  Keeps.trans h h' fun hs hs' => hs'.trans hs

theorem Frames.keeps (h : Frames R b b') (h' : Keeps S R b' b'') : Keeps S R b b'' :=
  Keeps.trans h h' fun hs hs' => hs ▸ hs'

/-- What each of several steps keeps, all of them keep. -/
theorem forM_keeps {α : Type} {K : Binder → Binder → Prop} (hrefl : ∀ b, K b b)
    (htrans : ∀ {b b' b''}, K b b' → K b' b'' → K b b'') {f : α → BindM Unit} : ∀ {xs : List α},
    (∀ x ∈ xs, ∀ b, K b (f x b).2) → ∀ b, K b (xs.forM f b).2
  | [], _, b => hrefl b
  | x :: _, h, b => htrans (h x List.mem_cons_self b)
      (forM_keeps hrefl htrans (fun y hy => h y (List.mem_cons_of_mem _ hy)) (f x b).2)

theorem frames_forM {α : Type} {f : α → BindM Unit} {xs : List α} (h : ∀ x ∈ xs, ∀ b, Frames R b (f x b).2) (b : Binder) :
    Frames R b (xs.forM f b).2 :=
  forM_keeps (.refl R) .trans h b

/-! ## Expressions -/

/-- Behind a visit the expression has been given a meaning, or all meanings are what they were. -/
def Marks (e : ExprRef) (b b' : Binder) : Prop :=
  b'.resolutions = b.resolutions ∨ ∃ r, b'.resolutions = b.resolutions.set e r

variable (a names) in
theorem marks_refer (e : ExprRef) (x : Expr) (b : Binder) : Marks e b (refer a names e x b).2 := by
  obtain ⟨more, h | ⟨r, h⟩⟩ := refer_run names a e x b
  · exact .inl (by rw [h])
  · exact .inr ⟨r, by rw [h]⟩

theorem frames_refer (e : ExprRef) (x : Expr) (b : Binder) (hR : R e) : Frames R b (refer a names e x b).2 := by
  have ht : Touches e b (refer a names e x b).2 := touches_refer a e x b
  refine ⟨⟨ht.errors, fun e' he' => ?_, fun e' he' => ht.others e' fun heq => he' (heq ▸ hR), ht.size⟩, ht.scopes,
    ht.classes, ht.currentClass⟩
  rcases marks_refer a names e x b with h | ⟨r, h⟩
  · rw [h]
    exact he'
  · rw [h, Resolutions.get?_set]
    split
    · rfl
    · exact he'

/-- Any other expression than that of an operator is bound by a visit to it and by binding its parts. -/
theorem expr_node {e : ExprRef} {x : Expr} (hx : a.expr? e = some x) (hop : ∀ op left right, x ≠ .binary op left right) :
    expr a names (n + 1) e = (do refer a names e x; x.parts.forM (expr a names n)) := by
  rw [expr, hx]
  cases x with
  | binary op left right => exact absurd rfl (hop op left right)
  | _ => simp [refer, Expr.parts]

variable (a names) in
/-- **Binding an expression adds faults and meanings, and changes nothing else.** -/
theorem expr_frames (n : Nat) (e : ExprRef) (b : Binder) : Frames (a.Below e) b (expr a names n e b).2 := by
  induction n generalizing e b with
  | zero => exact Keeps.of_same (List.prefix_append _ _) rfl rfl rfl rfl
  | succ n ih =>
    cases hx : a.expr? e with
    | none =>
      rw [expr, hx]
      exact .refl _ b
    | some x =>
      have hpart : ∀ part ∈ x.parts, ∀ b, Frames (a.Below e) b (expr a names n part b).2 := fun part hp b =>
        (ih part b).mono fun _ => .part hx hp
      by_cases hop : ∃ op left right, x = .binary op left right
      · obtain ⟨op, left, right, rfl⟩ := hop
        obtain ⟨hend, hrest⟩ := a.leftSpineFrom_below (fun _ => true) a.nodes.size e
        have hreached : ∀ e', a.Below e e' → ∀ b, Frames (a.Below e) b (expr a names n e' b).2 := fun e' he' b =>
          (ih e' b).mono fun _ => he'.trans
        rw [expr, hx]
        exact (hreached _ hend b).trans
          (frames_forM (fun r hr => hreached r.2 (hrest r hr)) _)
      · rw [expr_node hx fun op left right heq => hop ⟨op, left, right, heq⟩]
        exact (frames_refer e x b .self).trans (frames_forM hpart _)

/-! ## Names -/

variable (names) in
/-- A name is declared, or it is reported. -/
theorem declare_run (D : Declared) (place : Option Location) (b : Binder) : ∃ more,
    declare names D.name D.ty D.kind place b = ((b.scopes.declare D.name b.scopes.depth D.ty D.kind).isSome,
      { b with scopes := b.scopes.declared D, errors := b.errors ++ more }) := by
  unfold declare Scopes.declared
  simp only [bind_run, get_run]
  cases b.scopes.declare D.name b.scopes.depth D.ty D.kind with
  | none => exact ⟨_, rfl⟩
  | some r => exact ⟨[], by simp⟩

variable (names) in
theorem declareAll_run (kind : EntryKind) (xs : List TypedName) (b : Binder) : ∃ more,
    (declareAll names kind xs (xs.map fun x => x.ty.checked) b).2 =
      { b with scopes := (Declared.members kind xs).foldl Scopes.declared b.scopes, errors := b.errors ++ more } := by
  induction xs generalizing b with
  | nil => exact ⟨[], by simp [declareAll, Declared.members]⟩
  | cons x xs ih =>
    obtain ⟨more, hx⟩ := declare_run names ⟨x.name, kind, x.ty.checked⟩ x.location b
    obtain ⟨more', hxs⟩ := ih { b with
      scopes := b.scopes.declared ⟨x.name, kind, x.ty.checked⟩
      errors := b.errors ++ more }
    refine ⟨more ++ more', ?_⟩
    have hcons : declareAll names kind (x :: xs) ((x :: xs).map fun x => x.ty.checked) = (do
        let _ ← declare names x.name x.ty.checked kind x.location
        declareAll names kind xs (xs.map fun x => x.ty.checked)) := rfl
    simp only [hcons, bind_run, hx, hxs, List.append_assoc]
    rfl

/-! ## Functions -/

variable (names) in
theorem enterFunction_run (f : Function) (kind : EntryKind) (b : Binder) : ∃ more,
    (enterFunction names f kind b).2 =
      { b with
        scopes := (Declared.members .param f.params).foldl Scopes.declared
          ((b.scopes.declared (f.declared kind)).push (.empty .function))
        errors := b.errors ++ more } := by
  obtain ⟨more, hname⟩ := declare_run names (f.declared kind) f.location b
  obtain ⟨more', hparams⟩ := declareAll_run names .param f.params { b with
    scopes := (b.scopes.declared (f.declared kind)).push (.empty .function)
    errors := b.errors ++ more }
  refine ⟨more ++ more', ?_⟩
  dsimp only [Function.declared] at hname
  simp only [enterFunction, bind_run, hname, modify_run]
  refine hparams.trans ?_
  simp only [List.append_assoc]

variable (names) in
/-- Inside a function that has been entered. -/
theorem depth_enterFunction (f : Function) (kind : EntryKind) {b : Binder} (hne : b.scopes.stack ≠ []) :
    (enterFunction names f kind b).2.scopes.depth ≠ 0 := by
  obtain ⟨more, henter⟩ := enterFunction_run names f kind b
  have hwithin := ((b.scopes.declared (f.declared kind)).push (.empty .function)).within_foldl
    (Declared.members .param f.params)
  rw [henter, hwithin.depth]
  have := (b.scopes.within_declared (f.declared kind)).length
  have := List.length_pos_iff.2 hne
  simp only [Scopes.depth, Scopes.push, List.length_cons]
  omega

/-- Declarations further in change the innermost scope at most. -/
def Encloses (a : Arena) (names : Names) (n : Nat) : Prop :=
  ∀ (d : DeclRef) (b : Binder), b.scopes.depth ≠ 0 → Keeps Scopes.Within (a.Reaches d) b (decl a names n d b).2

theorem region_keeps (h : Encloses a names n) (ds : List DeclRef) (body : ExprRef) (b : Binder)
    (hdepth : b.scopes.depth ≠ 0) :
    Keeps Scopes.Within (fun e => (∃ d ∈ ds, a.Reaches d e) ∨ a.Below body e) b (region a names n ds body b).2 := by
  have hdecls : b.scopes.depth ≠ 0 → Keeps Scopes.Within (fun e => (∃ d ∈ ds, a.Reaches d e) ∨ a.Below body e) b
      (ds.forM (decl a names n) b).2 :=
    forM_keeps (K := fun b b' => b.scopes.depth ≠ 0 →
        Keeps Scopes.Within (fun e => (∃ d ∈ ds, a.Reaches d e) ∨ a.Below body e) b b')
      (fun b _ => .of_same List.prefix_rfl rfl (.refl _) rfl rfl)
      (fun h h' h0 => (h h0).trans (h' (by rwa [(h h0).scopes.depth])) .trans)
      (fun d hd b h0 => (h d b h0).mono fun e he => .inl ⟨d, hd, he⟩) b
  have hbody := (expr_frames a names maxNesting body (ds.forM (decl a names n) b).2).mono
    (T := fun e => (∃ d ∈ ds, a.Reaches d e) ∨ a.Below body e) fun e he => .inr he
  exact (hdecls hdepth).trans hbody fun hs hs' => by rwa [hs']

/-- **A function declares its name,** and closes again what it opens. -/
theorem function_keeps (h : Encloses a names n) (f : Function) (kind : EntryKind) (b : Binder)
    (hne : b.scopes.stack ≠ []) :
    Keeps (fun s s' => s' = s.declared (f.declared kind)) (fun e => (∃ d ∈ f.locals, a.Reaches d e) ∨ a.Below f.body e) b
      (function a names (decl a names n) f f.arrowType.checked kind b).2 := by
  obtain ⟨more, henter⟩ := enterFunction_run names f kind b
  have hwithin := ((b.scopes.declared (f.declared kind)).push (.empty .function)).within_foldl
    (Declared.members .param f.params)
  have hin := region_keeps h f.locals f.body _ (depth_enterFunction names f kind hne)
  rw [function_run]
  refine ⟨⟨?_, fun e he => ?_, fun e he => ?_, ?_⟩, ?_, ?_, ?_⟩
  · refine List.IsPrefix.trans ?_ hin.errors
    rw [henter]
    exact List.prefix_append _ _
  · refine hin.resolved e ?_
    rwa [henter]
  · refine (hin.others e he).trans ?_
    rw [henter]
  · refine hin.size.trans ?_
    rw [henter]
  · refine hin.scopes.pop.trans ?_
    rw [henter]
    exact hwithin.pop
  · refine hin.classes.trans ?_
    rw [henter]
  · refine hin.currentClass.trans ?_
    rw [henter]

/-! ## Classes -/

variable (names) in
theorem enterClass_run (c : Class) (b : Binder) : ∃ more, (enterClass names c b).2 =
    { b with
      scopes := (Declared.members .field c.fields).foldl Scopes.declared
        ((b.scopes.declared c.declared).push (.empty (.cls c.name)))
      errors := b.errors ++ more
      currentClass := some c.name } := by
  obtain ⟨more, hshape, -⟩ := classShape_spec names c { b with currentClass := some c.name }
  obtain ⟨more', hname⟩ := declare_run names c.declared c.location
    { b with currentClass := some c.name, errors := b.errors ++ more }
  obtain ⟨more'', hfields⟩ := declareAll_run names .field c.fields { b with
    currentClass := some c.name
    scopes := (b.scopes.declared c.declared).push (.empty (.cls c.name))
    errors := b.errors ++ more ++ more' }
  refine ⟨more ++ more' ++ more'', ?_⟩
  dsimp only [Class.declared] at hname
  simp only [enterClass, bind_run, modify_run, hshape, hname]
  refine hfields.trans ?_
  simp only [List.append_assoc]

theorem methods_keep (h : Encloses a names n) : ∀ (ms : List Function) (b : Binder), b.scopes.stack ≠ [] →
    Keeps (fun s s' => s' = (ms.map (·.declared .method)).foldl Scopes.declared s)
      (fun e => ∃ m ∈ ms, (∃ d ∈ m.locals, a.Reaches d e) ∨ a.Below m.body e) b (methods a names n ms b).2
  | [], b, _ => .of_same List.prefix_rfl rfl rfl rfl rfl
  | m :: ms, b, hne => by
    have hm := (function_keeps h m .method b hne).mono
      (T := fun e => ∃ m' ∈ m :: ms, (∃ d ∈ m'.locals, a.Reaches d e) ∨ a.Below m'.body e)
      fun e he => ⟨m, List.mem_cons_self, he⟩
    have hne' : (function a names (decl a names n) m m.arrowType.checked .method b).2.scopes.stack ≠ [] := by
      rw [hm.scopes, ← List.length_pos_iff, (b.scopes.within_declared _).length]
      exact List.length_pos_iff.2 hne
    have hms := (methods_keep h ms _ hne').mono
      (T := fun e => ∃ m' ∈ m :: ms, (∃ d ∈ m'.locals, a.Reaches d e) ∨ a.Below m'.body e)
      fun e ⟨m', hm', he⟩ => ⟨m', List.mem_cons_of_mem _ hm', he⟩
    exact hm.trans hms fun hs hs' => by rw [hs', hs, List.map_cons, List.foldl_cons]

theorem leaveClass_run (c : Class) (free : Bool) {outer : Scopes} {scope : Scope} {b : Binder}
    (hb : b.scopes = outer.push scope) : (leaveClass c free b).2 = { b with
      scopes := outer
      classes := if free then b.classes.insertNew c.name ⟨c.shape, scope⟩ else b.classes
      currentClass := none } := by
  have hcurrent : b.scopes.current? = some scope := by rw [hb]; rfl
  have hpop : b.scopes.pop = outer := by rw [hb]; rfl
  cases free with
  | false => simp [leaveClass, leave, hpop]
  | true => simp [leaveClass, leave, hcurrent, hpop]

/-! ## Declarations -/

/-- What binding a declaration comes to: its name is declared in the innermost scope, if it may be and is free there; a
class that is declared comes into the table with the scope of its members; the class that is being read is the same
again. -/
structure Outcome (a : Arena) (d : DeclRef) (b b' : Binder) : Prop extends Adds (a.Reaches d) b b' where
  scopes : b'.scopes = (a.declares b.scopes.depth d).foldl Scopes.declared b.scopes
  classes : b'.classes = b.classes ∨ ∃ c, a.decl? d = some (.classDecl c) ∧ b.scopes.depth = 0 ∧
    (b.scopes.declare c.name 0 c.shape.type .cls).isSome ∧
    b'.classes = b.classes.insertNew c.name ⟨c.shape, (c.block c.methods).scope 1⟩
  currentClass : (b.scopes.depth = 0 → b.currentClass = none) → b'.currentClass = b.currentClass

theorem Keeps.outcome {d : DeclRef} (h : Keeps S (a.Reaches d) b b')
    (hS : S b.scopes b'.scopes → b'.scopes = (a.declares b.scopes.depth d).foldl Scopes.declared b.scopes) :
    Outcome a d b b' :=
  ⟨h.toAdds, hS h.scopes, .inl h.classes, fun _ => h.currentClass⟩

theorem varDecl_outcome {d : DeclRef} {v : Variable} (hx : a.decl? d = some (.varDecl v)) (b : Binder) :
    Outcome a d b (decl a names (n + 1) d b).2 := by
  have hinit : Frames (a.Reaches d) b (whole a names v.init b).2 :=
    (expr_frames a names maxNesting v.init b).mono fun e he => ⟨v.init, .init hx, he⟩
  obtain ⟨more, hname⟩ := declare_run names ⟨v.name, .var, v.ty.checked⟩ v.location
    { (whole a names v.init b).2 with
      errors := (whole a names v.init b).2.errors ++
        unknowns names v.location (whole a names v.init b).2 v.ty.checked.classes }
  dsimp only at hname
  have hrun : (decl a names (n + 1) d b).2 = { (whole a names v.init b).2 with
      scopes := (whole a names v.init b).2.scopes.declared ⟨v.name, .var, v.ty.checked⟩
      errors := (whole a names v.init b).2.errors ++
        unknowns names v.location (whole a names v.init b).2 v.ty.checked.classes ++ more } := by
    rw [decl_var hx]
    simp only [declareVar, bind_run, checkType_run, hname, pure_run]
  rw [hrun]
  have hdeclare : Keeps (fun s s' => s' = s.declared ⟨v.name, .var, v.ty.checked⟩) (a.Reaches d)
      (whole a names v.init b).2 { (whole a names v.init b).2 with
        scopes := (whole a names v.init b).2.scopes.declared ⟨v.name, .var, v.ty.checked⟩
        errors := (whole a names v.init b).2.errors ++
          unknowns names v.location (whole a names v.init b).2 v.ty.checked.classes ++ more } :=
    .of_same (by rw [List.append_assoc]; exact List.prefix_append _ _) rfl rfl rfl rfl
  refine (hinit.keeps hdeclare).outcome fun hs => ?_
  rw [hs, Arena.declares_var hx]
  rfl

theorem funDecl_outcome (h : Encloses a names n) {d : DeclRef} {f : Function} (hx : a.decl? d = some (.funDecl f))
    (b : Binder) (hne : b.scopes.stack ≠ []) : Outcome a d b (decl a names (n + 1) d b).2 := by
  have hfun := (function_keeps h f .func
    { b with errors := b.errors ++ unknowns names f.location b f.arrowType.checked.classes } hne).mono (T := a.Reaches d)
    fun e he => by
      rcases he with ⟨d', hd', w, hw, he⟩ | he
      · exact ⟨w, .inner hx hd' hw, he⟩
      · exact ⟨f.body, .body hx, he⟩
  have hrun : decl a names (n + 1) d b = function a names (decl a names n) f f.arrowType.checked .func
      { b with errors := b.errors ++ unknowns names f.location b f.arrowType.checked.classes } := by
    simp only [decl, hx, bind_run, checkType_run]
  have htype : Frames (a.Reaches d) b
      { b with errors := b.errors ++ unknowns names f.location b f.arrowType.checked.classes } :=
    Keeps.of_same (List.prefix_append _ _) rfl rfl rfl rfl
  rw [hrun]
  refine (htype.keeps hfun).outcome fun hs => ?_
  rw [hs, Arena.declares_fun hx]
  rfl

theorem classDecl_outcome (h : Encloses a names n) {d : DeclRef} {c : Class} (hx : a.decl? d = some (.classDecl c))
    (b : Binder) (hne : b.scopes.stack ≠ []) : Outcome a d b (decl a names (n + 1) d b).2 := by
  by_cases hdepth : b.scopes.depth = 0
  · obtain ⟨more, henter⟩ := enterClass_run names c b
    have hlen : (b.scopes.declared c.declared).stack.length = 1 := by
      have := List.length_pos_iff.2 hne
      rw [(b.scopes.within_declared _).length]
      simp only [Scopes.depth] at hdepth
      omega
    have hfields : (enterClass names c b).2.scopes = (b.scopes.declared c.declared).push ((c.block []).scope 1) := by
      rw [henter, Scopes.foldl_declared_push, hlen, Class.block_nil]
      rfl
    have hmethods := methods_keep h c.methods (enterClass names c b).2 (by rw [hfields]; exact List.cons_ne_nil _ _)
    have hscope : (methods a names n c.methods (enterClass names c b).2).2.scopes =
        (b.scopes.declared c.declared).push ((c.block c.methods).scope 1) := by
      rw [hmethods.scopes, hfields, Scopes.foldl_declared_push, hlen]
      simp only [Block.scope, Class.block, List.map_nil, List.append_nil, List.foldl_append]
      rfl
    have hadds : Adds (a.Reaches d) b (methods a names n c.methods (enterClass names c b).2).2 := by
      have henters : Adds (a.Reaches d) b (enterClass names c b).2 := by
        rw [henter]
        exact .of_same (List.prefix_append _ _) rfl
      refine henters.trans (hmethods.toAdds.mono fun e he => ?_)
      obtain ⟨m, hm, ⟨d', hd', w, hw, he⟩ | he⟩ := he
      · exact ⟨w, .methodInner hx hm hd' hw, he⟩
      · exact ⟨m.body, .methodBody hx hm, he⟩
    have hclasses : (methods a names n c.methods (enterClass names c b).2).2.classes = b.classes :=
      hmethods.classes.trans (by rw [henter])
    rw [decl_class_run hx b hdepth]
    simp only [bind_run, leaveClass_run c _ hscope]
    refine ⟨⟨hadds.errors, hadds.resolved, hadds.others, hadds.size⟩, ?_, ?_, fun hcur => (hcur hdepth).symm⟩
    · rw [Arena.declares_class hx, if_pos hdepth]
      rfl
    · rw [hclasses]
      cases hfree : (b.scopes.declare c.name 0 c.shape.type .cls).isSome with
      | false => exact .inl rfl
      | true => exact .inr ⟨c, hx, hdepth, hfree, rfl⟩
  · rw [decl_classDecl hx, if_neg hdepth]
    refine Keeps.outcome (S := fun s s' => s' = s) (.of_same (List.prefix_append _ _) rfl rfl rfl rfl) fun hs => ?_
    rw [hs, Arena.declares_class hx, if_neg hdepth]
    rfl

/-- With a level to spare a declaration comes to its outcome, if those further in do. -/
theorem outcome_succ (h : Encloses a names n) (d : DeclRef) (b : Binder) (hne : b.scopes.stack ≠ []) :
    Outcome a d b (decl a names (n + 1) d b).2 := by
  cases hx : a.decl? d with
  | none =>
    rw [decl, hx]
    refine (Frames.refl (a.Reaches d) b).outcome fun _ => ?_
    rw [Arena.declares, hx]
    rfl
  | some x =>
    cases x with
    | varDecl v => exact varDecl_outcome hx b
    | funDecl f => exact funDecl_outcome h hx b hne
    | classDecl c => exact classDecl_outcome h hx b hne

theorem encloses (a : Arena) (names : Names) : ∀ n, Encloses a names n := by
  intro n
  induction n with
  | zero => exact fun d b _ => .of_same List.prefix_rfl rfl (.refl _) rfl rfl
  | succ n ih =>
    intro d b hdepth
    have hne : b.scopes.stack ≠ [] := by
      intro hnil
      rw [Scopes.depth, hnil] at hdepth
      exact hdepth rfl
    have hout : Outcome a d b (decl a names (n + 1) d b).2 := outcome_succ ih d b hne
    refine ⟨hout.toAdds, ?_, ?_, hout.currentClass fun h0 => absurd h0 hdepth⟩
    · rw [hout.scopes]
      exact b.scopes.within_foldl _
    · rcases hout.classes with hsame | ⟨c, -, h0, -⟩
      · exact hsame
      · exact absurd h0 hdepth

/-- **Binding a declaration comes to its outcome,** from any state with an open scope. -/
theorem decl_outcome (n : Nat) (d : DeclRef) (b : Binder) (hne : b.scopes.stack ≠ []) :
    Outcome a d b (decl a names (n + 1) d b).2 :=
  outcome_succ (encloses a names n) d b hne

end Binder

end Fool
