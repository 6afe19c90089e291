import Fool.Binding.Basic
import Fool.Proofs.Binding.Effects
import Fool.Proofs.Parse.Decls

/-!
# The moments of binding a program

`Happens` says that a step is taken at some moment, from a state that stands at a context, and that nothing done later
takes back what it found out. Every declaration with the expression behind it is bound at such a moment
(`regionBound`), and so every expression is visited at one, when it has no meaning yet (`happens_visit`).
-/

namespace Fool

namespace Binder

/-- The step is taken at `b`, what it finds out about the expressions with numbers from `lo` to `hi` is what `last` knows
of them, and the classes that it leaves `last` has. -/
structure Moment (p : Program) (last : Binder) (Γ : Context) (m : BindM Unit) (lo hi : Nat) (b : Binder) : Prop where
  stands : At p Γ b
  fresh : ∀ e : ExprRef, lo ≤ e.index → e.index < hi → b.resolutions.get? e = none
  size : b.resolutions.cells.size = p.arena.nodes.size
  errors : (m b).2.errors <+: last.errors
  classes : ∀ name info, (m b).2.classes.get? name = some info → last.classes.get? name = some info
  stays : ∀ e : ExprRef, lo ≤ e.index → e.index < hi → last.resolutions.get? e = (m b).2.resolutions.get? e

/-- The step is taken at some moment. -/
def Happens (p : Program) (last : Binder) (Γ : Context) (m : BindM Unit) (lo hi : Nat) : Prop :=
  ∃ b, Moment p last Γ m lo hi b

variable {p : Program} {last : Binder} {Γ Γ' Γ'' : Context} {m m' : BindM Unit} {lo mid hi : Nat}

theorem Happens.congr (h : Happens p last Γ m lo hi) (heq : ∀ b, At p Γ b → (m b).2 = (m' b).2) :
    Happens p last Γ m' lo hi := by
  obtain ⟨b, hb⟩ := h
  have hm := heq b hb.stands
  exact ⟨b, hb.stands, hb.fresh, hb.size, hm ▸ hb.errors, fun name info hi =>
    hb.classes name info (hm ▸ hi), fun e h1 h2 => by rw [← hm]; exact hb.stays e h1 h2⟩

/-- The first of two steps is taken. -/
theorem Happens.first (h : Happens p last Γ (do m; m') lo hi) (hm : Leads p m Γ Γ' lo mid)
    (hm' : Leads p m' Γ' Γ'' mid hi) (hhi : mid ≤ hi) : Happens p last Γ m lo mid := by
  obtain ⟨b, hb⟩ := h
  obtain ⟨hat, -⟩ := hm b hb.stands
  obtain ⟨-, hpass⟩ := hm' _ hat
  refine ⟨b, hb.stands, fun e h1 h2 => hb.fresh e h1 (Nat.lt_of_lt_of_le h2 hhi), hb.size,
    hpass.errors.trans hb.errors, fun name info hi => hb.classes name info (hpass.classes hi),
    fun e h1 h2 => ?_⟩
  rw [hb.stays e h1 (Nat.lt_of_lt_of_le h2 hhi)]
  exact hpass.outside e (Or.inl h2)

/-- The second of two steps is taken. -/
theorem Happens.second (h : Happens p last Γ (do m; m') lo hi) (hm : Leads p m Γ Γ' lo mid) (hlo : lo ≤ mid) :
    Happens p last Γ' m' mid hi := by
  obtain ⟨b, hb⟩ := h
  obtain ⟨hat, hpass⟩ := hm b hb.stands
  refine ⟨(m b).2, hat, fun e h1 h2 => ?_, hpass.size.trans hb.size, hb.errors, hb.classes, fun e h1 h2 => ?_⟩
  · rw [hpass.outside e (Or.inr h1)]
    exact hb.fresh e (Nat.le_trans hlo h1) h2
  · exact hb.stays e (Nat.le_trans hlo h1) h2

/-! ## Regions -/

/-- How deep the expressions of a program that was read can be nested is below what binding allows. -/
theorem nestingBound_le : Grammar.nestingBound ≤ maxNesting := by decide

/-- Declarations and the expression behind them stand somewhere and are bound there. -/
structure RegionBound (p : Program) (names : Names) (last : Binder) (Γ : Context) (ds : List DeclRef) (body : ExprRef)
    (n : Nat) (s m t : Pos) : Prop where
  nonempty : Γ ≠ []
  global : Γ.depth = 0 → ∀ d ∈ ds, d ∈ p.declarations
  row : Arena.Row (p.arena.DeclAt Grammar.nestingBound n) s ds m
  fill : p.arena.Fill Grammar.nestingBound m [body] t
  happens : Happens p last Γ (region p.arena names n ds body) s.nodes t.nodes

variable {names : Names} {ds ds' : List DeclRef} {d : DeclRef} {body : ExprRef} {n : Nat} {s q t : Pos}

theorem region_append (a : Arena) : region a names n (ds ++ ds') body = (do
    ds.forM (decl a names n)
    region a names n ds' body) := by
  simp [region]

/-- A declaration is bound at a moment of its own. -/
theorem RegionBound.decl (hpost : p.arena.Postordered) (h : RegionBound p names last Γ (ds ++ d :: ds') body n s q t) :
    ∃ s' t', p.arena.DeclAt Grammar.nestingBound n s' d t' ∧
      Happens p last (Γ.bind p.arena ds) (Binder.decl p.arena names n d) s'.nodes t'.nodes := by
  obtain ⟨s', hfront, t', hd, hback⟩ := h.row.split
  have hdecls : LeadsDecls p names Grammar.nestingBound n := leads_decl hpost nestingBound_le n
  have hglobal := h.global
  have hleads : Leads p (ds.forM (Binder.decl p.arena names n)) Γ (Γ.bind p.arena ds) s.nodes s'.nodes :=
    leads_row hdecls h.nonempty (fun h0 d' hd' => h.global h0 d' (List.mem_append_left _ hd')) hfront
  have hrest := h.happens
  rw [region_append] at hrest
  have hrest := hrest.second hleads hfront.decls_nodes_le
  have hne := Context.bind_ne_nil p.arena ds h.nonempty
  have hmem : (Γ.bind p.arena ds).depth = 0 → ∀ d' ∈ d :: ds', d' ∈ p.declarations := fun h0 d' hd' =>
    h.global (by simpa using h0) d' (List.mem_append_right _ hd')
  have hone := hdecls _ _ _ _ hne (fun h0 => hmem h0 d List.mem_cons_self) hd
  have hothers : Leads p (region p.arena names n ds' body) ((Γ.bind p.arena ds).bind p.arena [d])
      (((Γ.bind p.arena ds).bind p.arena [d]).bind p.arena ds') t'.nodes t.nodes :=
    leads_region hdecls hpost nestingBound_le (Context.bind_ne_nil p.arena [d] hne)
      (fun h0 d' hd' => hmem (by simpa using h0) d' (List.mem_cons_of_mem _ hd')) hback h.fill
  have hsplit : region p.arena names n (d :: ds') body = (do
      Binder.decl p.arena names n d
      region p.arena names n ds' body) := by simp [region]
  rw [hsplit] at hrest
  exact ⟨s', t', hd, hrest.first hone hothers (Nat.le_trans hback.decls_nodes_le h.fill.nodes_le)⟩

/-- What is inside a function that is entered and left is bound. -/
theorem RegionBound.of_enter (hpost : p.arena.Postordered) {enter : BindM Unit} {f : Function} (hne : Γ' ≠ [])
    (hat : p.arena.FunctionAt Grammar.nestingBound (p.arena.DeclAt Grammar.nestingBound n) s f t)
    (henter : Leads p enter Γ (f.block :: Γ') s.nodes s.nodes)
    (h : Happens p last Γ (do enter; region p.arena names n f.locals f.body; leave) s.nodes t.nodes) :
    ∃ q, RegionBound p names last (f.block :: Γ') f.locals f.body n s q t := by
  obtain ⟨q, hloc, hbody⟩ := hat
  have hdeep : Context.depth (f.block :: Γ') ≠ 0 := by
    have := List.length_pos_of_ne_nil hne
    simp [Context.depth, hne]
  have hdecls : LeadsDecls p names Grammar.nestingBound n := leads_decl hpost nestingBound_le n
  have hin := leads_region hdecls hpost nestingBound_le
    (List.cons_ne_nil f.block Γ') (fun h0 => absurd h0 hdeep) hloc hbody
  have hleave : Leads p leave (Context.bind (f.block :: Γ') p.arena f.locals) Γ' t.nodes t.nodes :=
    leads_leaveFunction f p.arena f.locals hne
  exact ⟨q, List.cons_ne_nil _ _, fun h0 => absurd h0 hdeep, hloc, hbody,
    (h.second henter (Nat.le_refl _)).first hin hleave (Nat.le_refl _)⟩

/-- The inside of a function is bound at a moment of its own. -/
theorem RegionBound.function (hpost : p.arena.Postordered)
    (h : RegionBound p names last Γ (ds ++ d :: ds') body n s q t) {f : Function}
    (hx : p.arena.decl? d = some (.funDecl f)) :
    ∃ n s q t, RegionBound p names last (f.block :: (Γ.bind p.arena ds).declareAll [f.declared .func]) f.locals f.body
      n s q t := by
  obtain ⟨s', t', hd, hhappens⟩ := h.decl hpost
  have hne : Γ.bind p.arena ds ≠ [] := Context.bind_ne_nil p.arena ds h.nonempty
  cases n with
  | zero => exact hd.elim
  | succ n =>
    have henter : Leads p (enterFunDecl names f) (Γ.bind p.arena ds)
        (f.block :: (Γ.bind p.arena ds).declareAll [f.declared .func]) s'.nodes s'.nodes := leads_enterFunDecl f hne
    obtain ⟨q', hin⟩ := RegionBound.of_enter (t := ⟨t'.nodes, d.index⟩) hpost (Context.declareAll_ne_nil _ hne)
      (hd.function hx) henter (hhappens.congr fun b _ => decl_function hx b)
    exact ⟨_, _, _, _, hin⟩

/-- A method among the methods of a class is bound at a moment of its own. -/
theorem happens_method (hpost : p.arena.Postordered) {c : Class} {ms ms' : List Function} {f : Function}
    (hdeclared : ∃ blk ∈ Γ, c.declared ∈ blk.declared) (hms : c.methods = ms ++ f :: ms')
    (hrow : Arena.Row (p.arena.FunctionAt Grammar.nestingBound (p.arena.DeclAt Grammar.nestingBound n)) s c.methods t)
    (h : Happens p last (c.block [] :: Γ) (methods p.arena names n c.methods) s.nodes t.nodes) :
    ∃ s' t', p.arena.FunctionAt Grammar.nestingBound (p.arena.DeclAt Grammar.nestingBound n) s' f t' ∧
      Happens p last (c.block ms :: Γ)
        (Binder.function p.arena names (Binder.decl p.arena names n) f f.arrowType.checked .method) s'.nodes t'.nodes := by
  have hdecls : LeadsDecls p names Grammar.nestingBound n := leads_decl hpost nestingBound_le n
  have hmem : ∀ m ∈ ms ++ f :: ms', m ∈ c.methods := fun m hm => hms ▸ hm
  rw [hms] at hrow h
  obtain ⟨s', hfront, t', hat, hback⟩ := hrow.split
  have hsplit : methods p.arena names n (ms ++ f :: ms') = (do
      methods p.arena names n ms
      (do
        Binder.function p.arena names (Binder.decl p.arena names n) f f.arrowType.checked .method
        methods p.arena names n ms')) := by simp [methods]
  rw [hsplit] at h
  have hbefore : Leads p (methods p.arena names n ms) (c.block [] :: Γ) (c.block ms :: Γ) s.nodes s'.nodes :=
    leads_methods hdecls hpost nestingBound_le hdeclared (fun m hm => hmem m (List.mem_append_left _ hm)) hfront
  have hone : Leads p (Binder.function p.arena names (Binder.decl p.arena names n) f f.arrowType.checked .method)
      (c.block ms :: Γ) (c.block (ms ++ [f]) :: Γ) s'.nodes t'.nodes :=
    leads_method hdecls hpost nestingBound_le hdeclared (hmem f (List.mem_append_right _ List.mem_cons_self)) hat
  have hafter : Leads p (methods p.arena names n ms') (c.block (ms ++ [f]) :: Γ) (c.block ((ms ++ [f]) ++ ms') :: Γ)
      t'.nodes t.nodes :=
    leads_methods hdecls hpost nestingBound_le hdeclared
      (fun m hm => hmem m (List.mem_append_right _ (List.mem_cons_of_mem _ hm))) hback
  exact ⟨s', t', hat, (h.second hbefore hfront.functions_le).first hone hafter hback.functions_le⟩

/-- A class that has been declared is found in the context. -/
theorem exists_declared_class (c : Class) (hne : Γ ≠ []) :
    ∃ blk ∈ Γ.declareAll [c.declared], c.declared ∈ blk.declared := by
  obtain ⟨blk, hblk, hin⟩ := Context.exists_mem_declareAll [c.declared] hne
  exact ⟨blk, hblk, hin _ List.mem_cons_self⟩

/-- The methods of a class are bound at a moment of their own. -/
theorem RegionBound.methods (hpost : p.arena.Postordered)
    (h : RegionBound p names last Γ (ds ++ d :: ds') body n s q t) {c : Class}
    (hx : p.arena.decl? d = some (.classDecl c)) (hdepth : Γ.depth = 0) : ∃ n s t,
      Arena.Row (p.arena.FunctionAt Grammar.nestingBound (p.arena.DeclAt Grammar.nestingBound n)) s c.methods t ∧
      Leads p (Binder.methods p.arena names n c.methods)
        (c.block [] :: (Γ.bind p.arena ds).declareAll [c.declared])
        (c.block c.methods :: (Γ.bind p.arena ds).declareAll [c.declared]) s.nodes t.nodes ∧
      Happens p last (c.block [] :: (Γ.bind p.arena ds).declareAll [c.declared])
        (Binder.methods p.arena names n c.methods) s.nodes t.nodes := by
  obtain ⟨s', t', hd, hhappens⟩ := h.decl hpost
  have hne : Γ.bind p.arena ds ≠ [] := Context.bind_ne_nil p.arena ds h.nonempty
  have hdepth' : (Γ.bind p.arena ds).depth = 0 := by simpa using hdepth
  have hne' : (Γ.bind p.arena ds).declareAll [c.declared] ≠ [] := Context.declareAll_ne_nil _ hne
  cases n with
  | zero => exact hd.elim
  | succ n =>
    obtain ⟨declared, -, hrun⟩ := decl_class names n hx hne hdepth'
    have henter : Leads p (enterClass names c) (Γ.bind p.arena ds)
        (c.block [] :: (Γ.bind p.arena ds).declareAll [c.declared]) s'.nodes s'.nodes := leads_enterClass c hne hdepth'
    have hmethods : Leads p (Binder.methods p.arena names n c.methods)
        (c.block [] :: (Γ.bind p.arena ds).declareAll [c.declared])
        (c.block c.methods :: (Γ.bind p.arena ds).declareAll [c.declared]) s'.nodes t'.nodes :=
      leads_methods (t := ⟨t'.nodes, d.index⟩) (leads_decl hpost nestingBound_le n) hpost nestingBound_le
        (exists_declared_class c hne) (fun _ hm => hm) (hd.methods hx)
    have hleave : Leads p (leaveClass c declared) (c.block c.methods :: (Γ.bind p.arena ds).declareAll [c.declared])
        ((Γ.bind p.arena ds).declareAll [c.declared]) t'.nodes t'.nodes :=
      leads_leaveClass declared hne' (by simpa using hdepth)
        (Context.mem_globals_of_depth hne hdepth' List.mem_cons_self)
        (h.global hdepth d (List.mem_append_right _ List.mem_cons_self)) hx
    have hall := ((hhappens.congr fun b hb => hrun b hb.scopes).second henter (Nat.le_refl _)).first hmethods hleave (Nat.le_refl _)
    exact ⟨n, s', ⟨t'.nodes, d.index⟩, hd.methods hx, hmethods, hall⟩

/-- The inside of a method is bound at a moment of its own. -/
theorem RegionBound.method (hpost : p.arena.Postordered)
    (h : RegionBound p names last Γ (ds ++ d :: ds') body n s q t) {c : Class} {ms ms' : List Function} {f : Function}
    (hx : p.arena.decl? d = some (.classDecl c)) (hdepth : Γ.depth = 0) (hms : c.methods = ms ++ f :: ms') :
    ∃ n s q t, RegionBound p names last (f.block :: c.block (ms ++ [f]) :: (Γ.bind p.arena ds).declareAll [c.declared])
      f.locals f.body n s q t := by
  have hdeclared : ∃ blk ∈ (Γ.bind p.arena ds).declareAll [c.declared], c.declared ∈ blk.declared :=
    exists_declared_class c (Context.bind_ne_nil p.arena ds h.nonempty)
  obtain ⟨n, s', t', hrow, -, hall⟩ := h.methods hpost hx hdepth
  obtain ⟨s₁, t₁, hat, hfun⟩ := happens_method hpost hdeclared hms hrow hall
  have henter : Leads p (enterFunction names f .method) (c.block ms :: (Γ.bind p.arena ds).declareAll [c.declared])
      (f.block :: c.block (ms ++ [f]) :: (Γ.bind p.arena ds).declareAll [c.declared]) s₁.nodes s₁.nodes :=
    leads_enterMethod hdeclared (hms ▸ List.mem_append_right _ List.mem_cons_self)
  obtain ⟨q', hin⟩ := RegionBound.of_enter hpost (List.cons_ne_nil _ _) hat henter
    (hfun.congr fun b _ => function_run p.arena f .method b)
  exact ⟨_, _, _, _, hin⟩

/-- The state at the end of binding. -/
def bound (p : Program) (names : Names) : Binder := (p.bindGlobals names (.start p.arena.nodes.size)).2

theorem bind_eq (p : Program) (names : Names) :
    p.bind names = ⟨(bound p names).resolutions, (bound p names).classes, (bound p names).errors⟩ := rfl

/-- Before anything is declared. -/
theorem at_start (p : Program) :
    At p [⟨.global, []⟩] { start p.arena.nodes.size with scopes := Scopes.empty.push (.empty .global) } where
  scopes := rfl
  current _ hc := by cases hc
  classes _ _ hi := by cases hi
  clean _ := ⟨by simp, by simp⟩

/-- The program as a whole is bound from the beginning. -/
theorem regionBound_main (h : p.Placed) (names : Names) :
    ∃ q, RegionBound p names (bound p names) [⟨.global, []⟩] p.declarations p.body (p.arena.decls.size + 1) ⟨0, 0⟩ q
      p.arena.stop := by
  obtain ⟨q, hrow, hfill⟩ := h.row
  refine ⟨q, List.cons_ne_nil _ _, fun _ d hd => hd, hrow, hfill, _, at_start p, fun e _ hlt => ?_, ?_,
    List.prefix_rfl, fun _ _ => id, fun e _ _ => rfl⟩
  · have hlt : e.index < p.arena.nodes.size := hlt
    simp [start, Resolutions.get?, Resolutions.blank, hlt]
  · simp [start, Resolutions.blank]

/-- **Declarations with the expression behind them are bound at a moment of their own.** -/
theorem regionBound (h : p.Placed) (names : Names) (hr : p.Region Γ ds body) :
    ∃ n s q t, RegionBound p names (bound p names) Γ ds body n s q t := by
  induction hr with
  | main =>
    obtain ⟨q, hq⟩ := regionBound_main h names
    exact ⟨_, _, _, _, hq⟩
  | function _ hx ih =>
    obtain ⟨n, s, q, t, hb⟩ := ih
    exact hb.function h.postordered hx
  | method _ hx hdepth hms ih =>
    obtain ⟨n, s, q, t, hb⟩ := ih
    exact hb.method h.postordered hx hdepth hms

/-! ## Expressions -/

theorem get?_visitAll {a : Arena} {e : ExprRef} : ∀ {es : List ExprRef} {b : Binder}, e ∉ es →
    (visitAll a names es b).2.resolutions.get? e = b.resolutions.get? e
  | [], _, _ => rfl
  | e' :: es, b, he => by
    rw [visitAll_cons, bind_run, get?_visitAll fun hmem => he (List.mem_cons_of_mem _ hmem)]
    exact (touches_visit a e' b).others e fun heq => he (heq ▸ List.mem_cons_self)

/-- An expression is visited once while the whole that it is part of is bound. -/
theorem Happens.visit (hpost : p.arena.Postordered) {k : Nat} (hk : k ≤ maxNesting) {whole e : ExprRef}
    (hfill : p.arena.Fill k s [whole] t) (h : Happens p last Γ (Binder.whole p.arena names whole) s.nodes t.nodes)
    (he : e ∈ p.arena.walk whole) : Happens p last Γ (Binder.visit p.arena names e) e.index (e.index + 1) := by
  obtain ⟨⟨hf, hlt, hend⟩, -, hn⟩ := hfill
  obtain ⟨b, hb⟩ := h
  simp only [Arena.Tiles] at hend
  have hrange : ∀ e' ∈ p.arena.walk whole, s.nodes ≤ e'.index ∧ e'.index < t.nodes := fun e' he' => by
    have := (hpost.mem_walk hlt).1 he'
    omega
  have herr := hb.errors
  have hclasses := hb.classes
  have hstays := hb.stays e (hrange e he).1 (hrange e he).2
  have hnodup := hpost.walk_nodup hlt
  obtain ⟨es, fs, hwalk⟩ := List.append_of_mem he
  rw [Binder.whole, expr_eq_walk hpost ((hn whole List.mem_cons_self).mono hk), hwalk, visitAll_append,
    visitAll_cons] at herr hclasses hstays
  rw [hwalk] at hnodup hrange
  obtain ⟨-, hback, hcross⟩ := List.nodup_append.1 hnodup
  have hes : e ∉ es := fun hmem => hcross e hmem e List.mem_cons_self rfl
  have hfs : e ∉ fs := (List.nodup_cons.1 hback).1
  obtain ⟨hat, hpass⟩ : At p Γ (visitAll p.arena names es b).2 ∧
      Passes s.nodes t.nodes b (visitAll p.arena names es b).2 :=
    hb.stands.visitAll fun e' he' => hrange e' (List.mem_append_left _ he')
  have hvisit : Touches e (visitAll p.arena names es b).2
      (Binder.visit p.arena names e (visitAll p.arena names es b).2).2 := touches_visit p.arena e _
  obtain ⟨-, hrest⟩ : At p Γ (visitAll p.arena names fs _).2 ∧ Passes s.nodes t.nodes _ (visitAll p.arena names fs _).2 :=
    (hat.touches hvisit).visitAll fun e' he' => hrange e' (List.mem_append_right _ (List.mem_cons_of_mem _ he'))
  refine ⟨_, hat, fun e' h1 h2 => ?_, hpass.size.trans hb.size, hrest.errors.trans herr,
    fun name info hi => hclasses name info (hrest.classes hi), fun e' h1 h2 => ?_⟩
  · obtain rfl : e' = e := by cases e'; cases e; simp only [ExprRef.mk.injEq] at *; omega
    rw [get?_visitAll hes]
    exact hb.fresh e' (hrange e' (List.mem_append_right _ List.mem_cons_self)).1
      (hrange e' (List.mem_append_right _ List.mem_cons_self)).2
  · obtain rfl : e' = e := by cases e'; cases e; simp only [ExprRef.mk.injEq] at *; omega
    rw [hstays]
    exact get?_visitAll hfs

/-- **Every expression is visited at a moment of its own, from a state that stands where the expression does.** -/
theorem happens_visit (h : p.Placed) (names : Names) {e : ExprRef} (hs : p.Site Γ e) :
    Happens p (bound p names) Γ (visit p.arena names e) e.index (e.index + 1) := by
  cases hs with
  | body hr he =>
    obtain ⟨n, s, q, t, hb⟩ := regionBound h names hr
    have hdecls : LeadsDecls p names Grammar.nestingBound n := leads_decl h.postordered nestingBound_le n
    have hrow := leads_row hdecls hb.nonempty hb.global hb.row
    exact (hb.happens.second hrow hb.row.decls_nodes_le).visit h.postordered nestingBound_le hb.fill he
  | @init Γ ds ds' d body _ v hr hx he =>
    obtain ⟨n, s, q, t, hb⟩ := regionBound h names hr
    obtain ⟨s', t', hd, hhappens⟩ := hb.decl h.postordered
    have hne : Γ.bind p.arena ds ≠ [] := Context.bind_ne_nil p.arena ds hb.nonempty
    cases n with
    | zero => exact hd.elim
    | succ n =>
      rw [decl_var hx] at hhappens
      have hinit : Leads p (whole p.arena names v.init) (Γ.bind p.arena ds) (Γ.bind p.arena ds) s'.nodes t'.nodes :=
        leads_whole (t := ⟨t'.nodes, d.index⟩) h.postordered nestingBound_le (hd.var hx)
      have hfirst := hhappens.first hinit (leads_declareVar v hne) (Nat.le_refl _)
      exact Happens.visit (t := ⟨t'.nodes, d.index⟩) h.postordered nestingBound_le (hd.var hx) hfirst he

end Binder

end Fool
