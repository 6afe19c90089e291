import Fool.Binding.Basic
import Fool.Proofs.Binding.Frame
import Fool.Proofs.Binding.Sites
import Mathlib.Data.List.Perm.Subperm
import Mathlib.Logic.Relation

/-!
# The states that binding reaches

`Reached p names task b` says that binding the program comes to the declaration or the expression `task` in the state `b`.
From each such state a declaration comes to its outcome (`Reached.ready`, `decl_outcome`). In a program that was read no
expression has a meaning when binding comes to it, so that binding only adds meanings (`Reached.adds_only`).
-/

namespace Fool

/-! ## Where what is reached lies -/

namespace Arena

variable {a : Arena} {k n : Nat} {s t : Pos} {e w : ExprRef} {d : DeclRef} {f : Function}

theorem Below.bounds (hpost : a.Postordered) (h : a.Below w e) : a.first w.index ≤ e.index ∧ e.index ≤ w.index := by
  induction h with
  | self => exact ⟨a.first_le _, Nat.le_refl _⟩
  | part hx hp _ ih =>
    obtain ⟨hfirst, hlt, -⟩ := hpost.part_bounds hx hp
    exact ⟨Nat.le_trans hfirst ih.1, Nat.le_trans ih.2 (Nat.le_of_lt hlt)⟩

theorem Between.widen {p q : Pos} (h : Between s e t) (hs : p.Before s) (ht : t.Before q) : Between p e q :=
  ⟨Nat.le_trans hs.1 h.1, Nat.lt_of_lt_of_le h.2 ht.1⟩

/-- What is reached from a whole expression lies between its ends, -/
theorem Fill.between (hpost : a.Postordered) (hfill : a.Fill k s [w] t) (h : a.Below w e) : Between s e t := by
  obtain ⟨⟨hfirst, -, hend⟩, -⟩ := hfill
  obtain ⟨hlo, hhi⟩ := h.bounds hpost
  simp only [Tiles] at hend
  simp only [Between]
  omega

/-- what is reached from a declaration between the ends of the declaration, -/
theorem DeclAt.between (hpost : a.Postordered) (hat : a.DeclAt k n s d t) (h : a.Reaches d e) : Between s e t := by
  obtain ⟨w, hw, hbelow⟩ := h
  obtain ⟨s', t', hfill, hs, ht⟩ := DeclAt.fill hw hat
  exact (hfill.between hpost hbelow).widen hs ht

/-- and what is reached inside a function between the ends of the function. -/
theorem FunctionAt.between (hpost : a.Postordered) (hat : a.FunctionAt k (a.DeclAt k n) s f t)
    (h : (∃ x ∈ f.locals, a.Reaches x e) ∨ a.Below f.body e) : Between s e t := by
  obtain ⟨m, hlocals, hbody⟩ := hat
  rcases h with ⟨x, hx, hreached⟩ | hbelow
  · obtain ⟨s', t', hat, hs, ht⟩ := hlocals.of_mem (fun hd => hd.before) hx
    exact (hat.between hpost hreached).widen hs (ht.trans hbody.before)
  · exact (hbody.between hpost hbelow).widen (hlocals.before fun hd => hd.before) (.refl t)

/-- So do parts, which fill the way in front of the whole. -/
theorem Tiles.apart : ∀ {es : List ExprRef} {lo hi : Nat}, a.Tiles lo es hi →
    List.Pairwise (fun x y => x.index < a.first y.index) es
  | [], _, _, _ => .nil
  | e :: es, _, _, ⟨_, _, hrest⟩ => by
    refine .cons (fun y hy => ?_) hrest.apart
    have := (hrest.bounds hy).1
    omega

/-- The operands that the walk down the left operands finds lie one behind the other. -/
theorem Postordered.leftSpine_apart (hpost : a.Postordered) (follow : Operator → Bool) (e : ExprRef) :
    List.Pairwise (fun x y => x.index < a.first y.index)
      ((a.leftSpine follow e).1 :: (a.leftSpine follow e).2.map (·.2)) := by
  obtain ⟨k, hstops⟩ := hpost.stops follow e
  induction hstops with
  | here hstop =>
    rw [leftSpine_stop hstop]
    exact List.pairwise_singleton _ _
  | @left k e left right op hx hop hleft ih =>
    obtain ⟨hend, hrest⟩ := a.leftSpineFrom_below follow a.nodes.size left
    rw [hleft.leftSpine_follow hx hop, List.map_append, ← List.cons_append]
    refine List.pairwise_append.2 ⟨ih, List.pairwise_singleton _ _, fun x hmem y hy => ?_⟩
    have hbelow : a.Below left x := by
      rcases List.mem_cons.1 hmem with rfl | hmem
      · exact hend
      · obtain ⟨q, hq, rfl⟩ := List.mem_map.1 hmem
        exact hrest q hq
    obtain rfl : y = right := List.mem_singleton.1 hy
    obtain ⟨-, -, hbehind, -⟩ := hpost _ _ hx
    exact Nat.lt_of_le_of_lt (hbelow.bounds hpost).2 (by omega)

end Arena

namespace Binder

variable {p : Program} {a : Arena} {names : Names} {n k : Nat} {s t : Pos} {b b' : Binder} {d : DeclRef} {e e' : ExprRef}
  {f : Function}

/-! ## States and what they are reached for -/

/-- A declaration or an expression that is bound, whose local declarations or parts may be nested as deep as the number
says. -/
inductive Task where
  | decl (n : Nat) (d : DeclRef)
  | expr (n : Nat) (e : ExprRef)

/-- Binds the declaration or the expression. -/
def Task.run (a : Arena) (names : Names) : Task → BindM Unit
  | .decl n d => Binder.decl a names n d
  | .expr n e => Binder.expr a names n e

/-- The state in which the declarations of a program are bound, inside the global scope. -/
def opened (p : Program) : Binder := { start p.arena.nodes.size with scopes := Scopes.empty.push (.empty .global) }

/-- Binding the declaration in `b` enters the function in `b'`: the function is the declaration itself, or it is a method of
a class at the outermost level, behind the methods in front of it. -/
inductive Enters (a : Arena) (names : Names) (n : Nat) (d : DeclRef) (b : Binder) : Function → Binder → Prop
  | function {f : Function} : a.decl? d = some (.funDecl f) → Enters a names n d b f (enterFunDecl names f b).2
  | method {c : Class} {ms ms' : List Function} {m : Function} : a.decl? d = some (.classDecl c) → b.scopes.depth = 0 →
      c.methods = ms ++ m :: ms' →
      Enters a names n d b m ((do enterClass names c; methods a names n ms; enterFunction names m .method) b).2

/-- Binding the expression in `b` comes to the expression `e'` in `b'`: to a part, behind the parts in front of it, or to an
operand of a chain of operators. -/
inductive Descends (a : Arena) (names : Names) (n : Nat) (e : ExprRef) (b : Binder) : ExprRef → Binder → Prop
  | part {x : Expr} {before after : List ExprRef} {e' : ExprRef} : a.expr? e = some x →
      (∀ op left right, x ≠ .binary op left right) → x.parts = before ++ e' :: after →
      Descends a names n e b e' ((do refer a names e x; before.forM (expr a names n)) b).2
  | first {op : Operator} {left right : ExprRef} : a.expr? e = some (.binary op left right) →
      Descends a names n e b (a.leftSpine (fun _ => true) e).1 b
  | operand {op : Operator} {left right e' : ExprRef} {before after : List (Operator × ExprRef)} {op' : Operator} :
      a.expr? e = some (.binary op left right) → (a.leftSpine (fun _ => true) e).2 = before ++ (op', e') :: after →
      Descends a names n e b e' ((do
        expr a names n (a.leftSpine (fun _ => true) e).1
        before.forM fun (_, right) => expr a names n right) b).2

/-- **Binding the program comes to the declaration or expression in the state.** -/
inductive Reached (p : Program) (names : Names) : Task → Binder → Prop
  | global {ds ds' : List DeclRef} {d : DeclRef} : p.declarations = ds ++ d :: ds' →
      Reached p names (.decl (p.arena.decls.size + 1) d)
        (ds.forM (decl p.arena names (p.arena.decls.size + 1)) (opened p)).2
  | body : Reached p names (.expr maxNesting p.body)
      (p.declarations.forM (decl p.arena names (p.arena.decls.size + 1)) (opened p)).2
  | init {n : Nat} {d : DeclRef} {v : Variable} {b : Binder} : Reached p names (.decl (n + 1) d) b →
      p.arena.decl? d = some (.varDecl v) → Reached p names (.expr maxNesting v.init) b
  | inner {n : Nat} {d d' : DeclRef} {f : Function} {ds ds' : List DeclRef} {b b' : Binder} :
      Reached p names (.decl (n + 1) d) b → Enters p.arena names n d b f b' → f.locals = ds ++ d' :: ds' →
      Reached p names (.decl n d') (ds.forM (decl p.arena names n) b').2
  | functionBody {n : Nat} {d : DeclRef} {f : Function} {b b' : Binder} : Reached p names (.decl (n + 1) d) b →
      Enters p.arena names n d b f b' →
      Reached p names (.expr maxNesting f.body) (f.locals.forM (decl p.arena names n) b').2
  | descend {n : Nat} {e e' : ExprRef} {b b' : Binder} : Reached p names (.expr (n + 1) e) b →
      Descends p.arena names n e b e' b' → Reached p names (.expr n e') b'

/-! ## Open scopes -/

/-- Some scope is open, and in the outermost one no class is being read. -/
structure Ready (b : Binder) : Prop where
  nonempty : b.scopes.stack ≠ []
  outermost : b.scopes.depth = 0 → b.currentClass = none

theorem Ready.of_within (h : Ready b) (hs : b.scopes.Within b'.scopes) (hc : b'.currentClass = b.currentClass) :
    Ready b' where
  nonempty := by
    rw [← List.length_pos_iff, hs.length]
    exact List.length_pos_iff.2 h.nonempty
  outermost h0 := by
    rw [hc]
    exact h.outermost (hs.depth ▸ h0)

theorem Ready.of_depth (h : b.scopes.depth ≠ 0) : Ready b where
  nonempty hnil := by
    rw [Scopes.depth, hnil] at h
    exact h rfl
  outermost h0 := absurd h0 h

/-- A declaration changes the innermost scope at most, and leaves the class that is being read. -/
theorem Ready.stays (h : Ready b) (n : Nat) (d : DeclRef) :
    b.scopes.Within (decl a names n d b).2.scopes ∧ (decl a names n d b).2.currentClass = b.currentClass := by
  cases n with
  | zero => exact ⟨.refl _, rfl⟩
  | succ n =>
    have hout : Outcome a d b (decl a names (n + 1) d b).2 := decl_outcome n d b h.nonempty
    rw [hout.scopes]
    exact ⟨b.scopes.within_foldl _, hout.currentClass h.outermost⟩

theorem Ready.decl (h : Ready b) (n : Nat) (d : DeclRef) : Ready (decl a names n d b).2 :=
  h.of_within (h.stays n d).1 (h.stays n d).2

theorem Ready.decls (n : Nat) : ∀ {ds : List DeclRef} {b : Binder}, Ready b →
    Ready (ds.forM (Binder.decl a names n) b).2 ∧ b.scopes.Within (ds.forM (Binder.decl a names n) b).2.scopes
  | [], b, h => ⟨h, .refl b.scopes⟩
  | d :: ds, b, h => by
    have hd : Ready (Binder.decl a names n d b).2 := h.decl n d
    obtain ⟨hready, hwithin⟩ := Ready.decls n hd
    exact ⟨hready, (h.stays n d).1.trans hwithin⟩

theorem Ready.frames {R : ExprRef → Prop} (h : Ready b) (hf : Frames R b b') : Ready b' :=
  h.of_within (hf.scopes ▸ .refl _) hf.currentClass

variable (names) in
theorem enterClass_nonempty (c : Class) (b : Binder) : (enterClass names c b).2.scopes.stack ≠ [] := by
  obtain ⟨more, henter⟩ := enterClass_run names c b
  have hfields := ((b.scopes.declared c.declared).push (.empty (.cls c.name))).within_foldl
    (Declared.members .field c.fields)
  rw [← List.length_pos_iff, henter, hfields.length]
  exact Nat.succ_pos _

/-- Inside a function that is entered. -/
theorem depth_enters (h : Ready b) (he : Enters a names n d b f b') : b'.scopes.depth ≠ 0 := by
  cases he with
  | function hx =>
    have hrun : (enterFunDecl names f b).2 = (enterFunction names f .func (checkType names f.location f.arrowType b).2).2 :=
      rfl
    rw [hrun, checkType_run]
    exact depth_enterFunction names f .func h.nonempty
  | @method c ms _ _ _ hdepth _ =>
    have hopen := enterClass_nonempty names c b
    have hmethods : (methods a names n ms (enterClass names c b).2).2.scopes.stack ≠ [] := by
      rw [← List.length_pos_iff, (methods_keep (encloses a names n) ms _ hopen).scopes, (Scopes.within_foldl _ _).length]
      exact List.length_pos_iff.2 hopen
    exact depth_enterFunction names f .method hmethods

theorem Ready.enters (h : Ready b) (he : Enters a names n d b f b') : Ready b' := .of_depth (depth_enters h he)

theorem frames_descends (hd : Descends a names n e b e' b') : Frames (a.Below e) b b' := by
  cases hd with
  | part hx _ hparts =>
    refine (frames_refer e _ b .self).trans (frames_forM (fun part hp b => ?_) _)
    have hmem := hparts ▸ List.mem_append_left _ hp
    exact (expr_frames a names n part b).mono fun _ => .part hx hmem
  | first _ => exact .refl _ b
  | operand _ hrest =>
    obtain ⟨hend, hspine⟩ := a.leftSpineFrom_below (fun _ => true) a.nodes.size e
    have hreached : ∀ e', a.Below e e' → ∀ b, Frames (a.Below e) b (expr a names n e' b).2 := fun e' he' b =>
      (expr_frames a names n e' b).mono fun _ => he'.trans
    refine (hreached _ hend b).trans (frames_forM (fun r hr => hreached r.2 (hspine r ?_)) _)
    exact hrest ▸ List.mem_append_left _ hr

/-- **In every state that is reached a scope is open,** and a class is being read inside its scope only. -/
theorem Reached.ready {task : Task} (h : Reached p names task b) : Ready b := by
  have hstart : Ready (opened p) := ⟨List.cons_ne_nil _ _, fun _ => rfl⟩
  induction h with
  | global _ => exact (hstart.decls _).1
  | body => exact (hstart.decls _).1
  | init _ _ ih => exact ih
  | inner _ he _ ih => exact ((ih.enters he).decls _).1
  | functionBody _ he ih => exact ((ih.enters he).decls _).1
  | descend _ hd ih => exact ih.frames (frames_descends hd)

/-! ## Levels -/

/-- The other declaration is a local declaration of the function. -/
def Contains (a : Arena) (d d' : DeclRef) : Prop := ∃ f, a.decl? d = some (.funDecl f) ∧ d' ∈ f.locals

/-- No function that binding comes to is inside itself. Otherwise it would come to it again and again. -/
def Ends (p : Program) (names : Names) : Prop :=
  ∀ n d b, Reached p names (.decl n d) b → ¬Relation.TransGen (Contains p.arena) d d

/-- The declarations around one that is bound, the nearest first: none comes twice. -/
structure Path (a : Arena) (d : DeclRef) (b : Binder) (path : List DeclRef) : Prop where
  nodup : path.Nodup
  declared : ∀ x ∈ path, (a.decl? x).isSome
  inside : ∀ x ∈ path, ∀ f, a.decl? x = some (.funDecl f) → Relation.TransGen (Contains a) x d
  deep : path ≠ [] → b.scopes.depth ≠ 0

theorem Path.enters {path : List DeclRef} {d' : DeclRef} (h : Path a d b path) (hd : ¬Relation.TransGen (Contains a) d d)
    (he : Enters a names n d b f b') (hmem : d' ∈ f.locals)
    (hdeep : b'.scopes.depth ≠ 0) : Path a d' b' (d :: path) := by
  cases he with
  | function hx =>
    have hstep : Contains a d d' := ⟨f, hx, hmem⟩
    refine ⟨List.nodup_cons.2 ⟨fun hin => hd (h.inside d hin f hx), h.nodup⟩, ?_, ?_, fun _ => hdeep⟩
    · exact List.forall_mem_cons.2 ⟨by rw [hx]; rfl, h.declared⟩
    · exact List.forall_mem_cons.2 ⟨fun _ _ => .single hstep, fun x hx g hg => (h.inside x hx g hg).tail hstep⟩
  | method hx hdepth _ =>
    -- A class is entered at the outermost level only, so nothing is around it.
    obtain rfl : path = [] := by_contra fun hne => h.deep hne hdepth
    refine ⟨List.nodup_singleton _, ?_, ?_, fun _ => hdeep⟩
    · exact List.forall_mem_cons.2 ⟨by rw [hx]; rfl, fun _ hin => absurd hin List.not_mem_nil⟩
    · refine List.forall_mem_cons.2 ⟨fun g hg => ?_, fun _ hin => absurd hin List.not_mem_nil⟩
      cases hx.symm.trans hg

theorem Path.length_le {path : List DeclRef} (h : Path a d b path) : path.length ≤ a.decls.size := by
  have hsub : path.map (·.index) ⊆ List.range a.decls.size := by
    intro i hi
    obtain ⟨x, hx, rfl⟩ := List.mem_map.1 hi
    have hsome := h.declared x hx
    rw [Arena.decl?] at hsome
    exact List.mem_range.2 (by simpa using hsome)
  have hnodup : (path.map (·.index)).Nodup := h.nodup.map fun x y hxy => by cases x; cases y; cases hxy; rfl
  simpa using (List.subperm_of_subset hnodup hsub).length_le

/-- With every declaration around one a level is used up. -/
theorem Reached.path (hends : Ends p names) {task : Task} (h : Reached p names task b) : ∀ n d, task = .decl n d →
    ∃ path, Path p.arena d b path ∧ n + path.length = p.arena.decls.size + 1 := by
  induction h with
  | global _ =>
    rintro n d ⟨⟩
    exact ⟨[], ⟨List.nodup_nil, by simp, by simp, fun h => absurd rfl h⟩, rfl⟩
  | inner hreached he hlocals ih =>
    rintro n d ⟨⟩
    obtain ⟨path, hpath, hlength⟩ := ih _ _ rfl
    have hready := hreached.ready
    have hmem := hlocals ▸ List.mem_append_right _ List.mem_cons_self
    have hpath' := hpath.enters (hends _ _ _ hreached) he hmem (depth_enters hready he)
    refine ⟨_, ⟨hpath'.nodup, hpath'.declared, hpath'.inside, fun hne => ?_⟩, ?_⟩
    · rw [((hready.enters he).decls _).2.depth]
      exact hpath'.deep hne
    · rw [List.length_cons]
      omega
  | body | init _ _ _ | functionBody _ _ _ | descend _ _ _ => rintro _ _ ⟨⟩

/-- **No level is lacking,** where binding ends. -/
theorem Reached.level (hends : Ends p names) (h : Reached p names (.decl n d) b) : n ≠ 0 := by
  obtain ⟨path, hpath, hlength⟩ := h.path hends n d rfl
  have := hpath.length_le
  omega

/-! ## What has a meaning already -/

theorem get?_blank (n : Nat) (e : ExprRef) : (Resolutions.blank n).get? e = none := by
  simp only [Resolutions.get?, Resolutions.blank, Array.getElem?_replicate]
  split <;> rfl

/-- Nothing behind the position has a meaning. -/
def Blank (s : Pos) (b : Binder) : Prop := ∀ e : ExprRef, s.nodes ≤ e.index → b.resolutions.get? e = none

theorem Blank.of_same (h : Blank s b) (hr : b'.resolutions = b.resolutions) : Blank s b' := fun e he => by
  rw [hr]
  exact h e he

theorem Blank.adds {R : ExprRef → Prop} (h : Blank s b) (hadds : Adds R b b') (hle : s.nodes ≤ t.nodes)
    (hR : ∀ e, R e → Arena.Between s e t) : Blank t b' := fun e he => by
  rw [hadds.others e fun hr => absurd (hR e hr).2 (Nat.not_lt.2 he)]
  exact h e (Nat.le_trans hle he)

theorem Blank.decl (hpost : a.Postordered) (h : Blank s b) (hb : Ready b) (hat : a.DeclAt k n s d t) :
    Blank t (decl a names n d b).2 := by
  cases n with
  | zero => exact hat.elim
  | succ n => exact h.adds (decl_outcome n d b hb.nonempty).toAdds hat.before.1 fun e he => hat.between hpost he

theorem Blank.decls (hpost : a.Postordered) : ∀ {ds : List DeclRef} {s t : Pos} {b : Binder}, Blank s b → Ready b →
    Arena.Row (a.DeclAt k n) s ds t → Blank t (ds.forM (Binder.decl a names n) b).2
  | [], _, _, _, h, _, hrow => by cases hrow; exact h
  | d :: ds, _, t, b, h, hb, ⟨_, hat, hrow⟩ => by
    have hrest : Blank t (ds.forM (Binder.decl a names n) (Binder.decl a names n d b).2).2 :=
      Blank.decls hpost (h.decl hpost hb hat) (hb.decl n d) hrow
    exact hrest

theorem blank_methods (hpost : a.Postordered) {ms : List Function} (h : Blank s b) (hb : b.scopes.stack ≠ [])
    (hrow : Arena.Row (a.FunctionAt k (a.DeclAt k n)) s ms t) : Blank t (methods a names n ms b).2 := by
  refine h.adds (methods_keep (encloses a names n) ms b hb).toAdds (hrow.before fun hm => hm.before).1 fun e he => ?_
  obtain ⟨m, hm, hreached⟩ := he
  obtain ⟨s', t', hat, hs, ht⟩ := hrow.of_mem (fun hm => hm.before) hm
  exact (hat.between hpost hreached).widen hs ht

/-- A function that is entered stands somewhere, and nothing from there on has a meaning. -/
theorem Blank.enters (hpost : a.Postordered) (h : Blank s b) (he : Enters a names n d b f b')
    (hat : a.DeclAt k (n + 1) s d t) : ∃ s' t', a.FunctionAt k (a.DeclAt k n) s' f t' ∧ Blank s' b' := by
  cases he with
  | function hx =>
    refine ⟨s, _, hat.function hx, h.of_same ?_⟩
    have hrun : (enterFunDecl names f b).2 = (enterFunction names f .func (checkType names f.location f.arrowType b).2).2 :=
      rfl
    obtain ⟨more, henter⟩ := enterFunction_run names f .func (checkType names f.location f.arrowType b).2
    rw [hrun, henter, checkType_run]
  | @method c ms _ _ hx _ hms =>
    have hrow := hat.methods hx
    rw [hms] at hrow
    obtain ⟨s', hfront, t', hm, -⟩ := hrow.split
    obtain ⟨more, henter⟩ := enterClass_run names c b
    have hblank : Blank s (enterClass names c b).2 := h.of_same (by rw [henter])
    have hmethods : Blank s' (methods a names n ms (enterClass names c b).2).2 :=
      blank_methods hpost hblank (enterClass_nonempty names c b) hfront
    obtain ⟨more', hfunction⟩ := enterFunction_run names f .method (methods a names n ms (enterClass names c b).2).2
    have hin : Blank s' (enterFunction names f .method (methods a names n ms (enterClass names c b).2).2).2 :=
      hmethods.of_same (by rw [hfunction])
    exact ⟨s', t', hm, hin⟩

/-- Nothing that is reached from the expression has a meaning; a declaration stands somewhere, and nothing from there on
has one. -/
def Task.Fresh (p : Program) (b : Binder) : Task → Prop
  | .decl n d => ∃ s t, p.arena.DeclAt Grammar.nestingBound n s d t ∧ Blank s b
  | .expr _ e => ∀ e', p.arena.Below e e' → b.resolutions.get? e' = none

theorem Blank.fill (hpost : p.arena.Postordered) (h : Blank s b) (hat : p.arena.Fill k s [e] t) :
    Task.Fresh p b (.expr n e) := fun e' he => h e' (hat.between hpost he).1

/-- The expressions in front are bound already, which lie in front. -/
theorem fresh_behind (hpost : a.Postordered) {es : List ExprRef} (h : ∀ e', a.Below e e' → b.resolutions.get? e' = none)
    (hapart : ∀ x ∈ es, x.index < a.first e.index)
    (hadds : Adds (fun e' => ∃ x ∈ es, a.Below x e') b b') :
    ∀ e', a.Below e e' → b'.resolutions.get? e' = none := by
  intro e' he
  rw [hadds.others e' fun ⟨x, hx, hbelow⟩ => ?_]
  · exact h e' he
  · have := hapart x hx
    have := (hbelow.bounds hpost).2
    have := (he.bounds hpost).1
    omega

theorem fresh_descends (hpost : a.Postordered) (h : ∀ x, a.Below e x → b.resolutions.get? x = none)
    (hd : Descends a names n e b e' b') : ∀ x, a.Below e' x → b'.resolutions.get? x = none := by
  cases hd with
  | @part x before after _ hx _ hparts =>
    have hmem : e' ∈ x.parts := hparts ▸ List.mem_append_right before List.mem_cons_self
    have hrefer : Frames (· = e) b (refer a names e x b).2 := frames_refer e x b rfl
    have hvisited : ∀ y, a.Below e' y → (refer a names e x b).2.resolutions.get? y = none := by
      intro y hy
      have hlt := (hpost.part_bounds hx hmem).2.1
      have hle := (hy.bounds hpost).2
      rw [hrefer.others y (by rintro rfl; omega)]
      exact h y (.part hx hmem hy)
    have hfront : Frames (fun y => ∃ part ∈ before, a.Below part y) (refer a names e x b).2
        (before.forM (expr a names n) (refer a names e x b).2).2 :=
      frames_forM (fun part hp b => (expr_frames a names n part b).mono fun _ he => ⟨part, hp, he⟩) _
    have hapart := (hpost e x hx).apart
    rw [hparts] at hapart
    exact fresh_behind hpost hvisited (fun y hy => (List.pairwise_append.1 hapart).2.2 y hy e' List.mem_cons_self)
      hfront.toAdds
  | first _ => exact fun x hx => h x ((a.leftSpineFrom_below (fun _ => true) a.nodes.size e).1.trans hx)
  | @operand _ _ _ _ before after op' _ hspine =>
    have hmem : (op', e') ∈ (a.leftSpine (fun _ => true) e).2 := hspine ▸ List.mem_append_right before List.mem_cons_self
    have hfront : Frames (fun y => ∃ x ∈ (a.leftSpine (fun _ => true) e).1 :: before.map (·.2), a.Below x y) b
        (before.forM (fun (_, right) => expr a names n right) (expr a names n (a.leftSpine (fun _ => true) e).1 b).2).2 := by
      have hend : Frames (fun y => ∃ x ∈ (a.leftSpine (fun _ => true) e).1 :: before.map (·.2), a.Below x y) b _ :=
        (expr_frames a names n (a.leftSpine (fun _ => true) e).1 b).mono fun _ hy => ⟨_, List.mem_cons_self, hy⟩
      refine hend.trans (frames_forM (fun r hr b => ?_) _)
      exact (expr_frames a names n r.2 b).mono fun _ hy =>
        ⟨r.2, List.mem_cons_of_mem _ (List.mem_map_of_mem hr), hy⟩
    have hapart := hpost.leftSpine_apart (fun _ => true) e
    rw [hspine, List.map_append, List.map_cons, ← List.cons_append] at hapart
    refine fresh_behind hpost (fun x hx => h x ?_)
      (fun y hy => (List.pairwise_append.1 hapart).2.2 y hy e' List.mem_cons_self) hfront.toAdds
    exact ((a.leftSpineFrom_below (fun _ => true) a.nodes.size e).2 _ hmem).trans hx

/-- **In a program that was read nothing has a meaning when binding comes to it.** -/
theorem Reached.fresh (hp : p.Placed) {task : Task} (h : Reached p names task b) : task.Fresh p b := by
  have hstart : Ready (opened p) := ⟨List.cons_ne_nil _ _, fun _ => rfl⟩
  have hblank : Blank ⟨0, 0⟩ (opened p) := fun e _ => get?_blank _ e
  obtain ⟨q, hrow, hfill⟩ := hp.row
  induction h with
  | global hds =>
    rw [hds] at hrow
    obtain ⟨s, hfront, t, hat, -⟩ := hrow.split
    exact ⟨s, t, hat, hblank.decls hp.postordered hstart hfront⟩
  | body => exact (hblank.decls hp.postordered hstart hrow).fill hp.postordered hfill
  | init _ hx ih =>
    obtain ⟨s, t, hat, hs⟩ := ih
    exact hs.fill hp.postordered (hat.var hx)
  | inner hreached he hlocals ih =>
    obtain ⟨s, t, hat, hs⟩ := ih
    obtain ⟨s', t', ⟨m, hrow, -⟩, hs'⟩ := hs.enters hp.postordered he hat
    rw [hlocals] at hrow
    obtain ⟨o, hfront, o', hat', -⟩ := hrow.split
    exact ⟨o, o', hat', hs'.decls hp.postordered (hreached.ready.enters he) hfront⟩
  | functionBody hreached he ih =>
    obtain ⟨s, t, hat, hs⟩ := ih
    obtain ⟨s', t', ⟨m, hrow, hbody⟩, hs'⟩ := hs.enters hp.postordered he hat
    exact (hs'.decls hp.postordered (hreached.ready.enters he) hrow).fill hp.postordered hbody
  | descend _ hd ih => exact fresh_descends hp.postordered ih hd

/-- **So binding adds meanings and changes none.** -/
theorem Reached.adds_only (hp : p.Placed) {task : Task} (h : Reached p names task b) (hb : (b.resolutions.get? e).isSome) :
    (task.run p.arena names b).2.resolutions.get? e = b.resolutions.get? e := by
  have hfresh := h.fresh hp
  cases task with
  | decl n d =>
    obtain ⟨s, t, hat, hs⟩ := hfresh
    cases n with
    | zero => exact hat.elim
    | succ n =>
      refine (decl_outcome n d b h.ready.nonempty).others e fun hreached => ?_
      rw [hs e (hat.between hp.postordered hreached).1] at hb
      cases hb
  | expr n w =>
    refine (expr_frames p.arena names n w b).others e fun hbelow => ?_
    rw [hfresh e hbelow] at hb
    cases hb

end Binder

end Fool
