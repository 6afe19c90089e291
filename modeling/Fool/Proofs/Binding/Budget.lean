import Fool.Proofs.Binding.Locals

/-!
# The budget of binding is never used up

Binding counts down a budget with every function that it enters. `declOr stop` does at the end of the budget whatever `stop`
says. Where no function is inside itself, a budget larger than the number of declarations is never used up: what `stop` does
makes no difference, nor does the size of the budget (`declOr_eq`, `Program.bindOr_eq`). So binding ends by itself.
-/

namespace Fool

open Relation (TransGen ReflTransGen)

namespace Binder

section Or

variable (arena : Arena) (names : Names)

/-- Binds a declaration; its local declarations are bound with `bindLocal`. -/
def declWith (bindLocal : DeclRef → BindM Unit) (d : DeclRef) : BindM Unit :=
  match arena.decl? d with
  | none => pure ()
  | some (.varDecl v) => do
    whole arena names v.init
    let ty ← checkType names v.location v.ty
    let _ ← declare names v.name ty .var v.location
  | some (.funDecl f) => do
    let ty ← checkType names f.location f.arrowType
    function arena names bindLocal f ty .func
  | some (.classDecl c) => do
    if (← get).scopes.depth = 0 then
      classBody arena names bindLocal c
    else
      report (.misplacedClass (names.text c.name)) c.location

/-- Binds a declaration with a budget; at its end `stop` is done. -/
def declOr (stop : DeclRef → BindM Unit) : Nat → DeclRef → BindM Unit
  | 0 => stop
  | n + 1 => declWith arena names (declOr stop n)

end Or

variable {a : Arena} {names : Names} {m n : Nat} {b : Binder} {f : Function} {bindLocal : DeclRef → BindM Unit}

theorem decl_succ (n : Nat) : decl a names (n + 1) = declWith a names (decl a names n) := rfl

/-- Binding with a budget is the case in which nothing is done at its end. -/
theorem declOr_pure : ∀ n, declOr a names (fun _ => pure ()) n = decl a names n
  | 0 => rfl
  | n + 1 => by rw [declOr, decl_succ, declOr_pure n]

theorem declWith_class {d : DeclRef} {c : Class} (hx : a.decl? d = some (.classDecl c)) (b : Binder) :
    declWith a names bindLocal d b = if b.scopes.depth = 0 then classBody a names bindLocal c b
      else report (.misplacedClass (names.text c.name)) c.location b := by
  have hrun : declWith a names bindLocal d b = (if b.scopes.depth = 0 then classBody a names bindLocal c
      else report (.misplacedClass (names.text c.name)) c.location) b := by
    rw [declWith, hx]
    rfl
  rw [hrun]
  split <;> rfl

/-! ## Steps that agree where they are taken -/

theorem forM_agree {γ : Type} {S : Binder → Prop} {g g' : γ → BindM Unit} : ∀ {xs : List γ} {b : Binder},
    (∀ x ∈ xs, ∀ b, S b → g x b = g' x b ∧ S (g' x b).2) → S b → xs.forM g b = xs.forM g' b
  | [], _, _, _ => rfl
  | x :: xs, b, h, hb => by
    obtain ⟨hx, hS⟩ := h x List.mem_cons_self b hb
    have hxs : xs.forM g (g' x b).2 = xs.forM g' (g' x b).2 :=
      forM_agree (fun y hy => h y (List.mem_cons_of_mem _ hy)) hS
    show xs.forM g (g x b).2 = xs.forM g' (g' x b).2
    rw [hx, hxs]

/-- The local declarations are bound alike inside a function. -/
def AgreeOn (a : Arena) (names : Names) (n : Nat) (bindLocal : DeclRef → BindM Unit) (f : Function) : Prop :=
  ∀ d ∈ f.locals, ∀ b, AtLevel false b → bindLocal d b = decl a names n d b

theorem AgreeOn.function (h : AgreeOn a names n bindLocal f) (kind : EntryKind) (hb : b.scopes.stack ≠ []) :
    Binder.function a names bindLocal f f.arrowType.checked kind b =
      Binder.function a names (decl a names n) f f.arrowType.checked kind b := by
  have hrun : ∀ bindLocal, Binder.function a names bindLocal f f.arrowType.checked kind b =
      (do enterFunction names f kind; f.locals.forM bindLocal; whole a names f.body; leave : BindM Unit) b := by
    intro bindLocal
    unfold Binder.function
    rw [paramTypes_checked]
    rfl
  have hlocals : f.locals.forM bindLocal (enterFunction names f kind b).2 =
      f.locals.forM (decl a names n) (enterFunction names f kind b).2 :=
    forM_agree (fun d hd b hb => ⟨h d hd b hb, hb.decl n d⟩) (atLevel_enterFunction names f kind hb)
  rw [hrun, hrun]
  simp only [bind_run, hlocals]

theorem classBody_agree {c : Class} (h : ∀ m ∈ c.methods, AgreeOn a names n bindLocal m) (b : Binder) :
    classBody a names bindLocal c b = classBody a names (decl a names n) c b := by
  have hmethods : (c.methods.forM fun m => function a names bindLocal m m.arrowType.checked .method)
      (enterClass names c b).2 = methods a names n c.methods (enterClass names c b).2 := by
    exact forM_agree (S := fun b => b.scopes.stack ≠ [])
      (fun m hm b hb => ⟨(h m hm).function .method hb, nonempty_function m .method hb n⟩) (enterClass_nonempty names c b)
  refine Prod.ext (Subsingleton.elim _ _) ?_
  rw [classBody_run, classBody_run]
  simp only [bind_run, hmethods]
  rfl

/-! ## Declarations -/

/-- **What would be done at the end of the budget makes no difference,** if the budget suffices for the ways inwards. -/
theorem declOr_eq (stop : DeclRef → BindM Unit) : ∀ (n m : Nat) (s : DeclSite) (b : Binder), a.Reserve n s →
    a.Reserve m s → AtLevel s.outermost b → declOr a names stop n s.decl b = decl a names m s.decl b := by
  intro n
  induction n with
  | zero => exact fun m s b hn _ _ => absurd hn Arena.not_reserve_zero
  | succ n ih =>
    intro m s b hn hm hb
    obtain ⟨m, rfl⟩ : ∃ k, m = k + 1 := ⟨m - 1, by have := hm [] (.singleton s); simp at this; omega⟩
    have hagree : ∀ f, a.Hosts s f → AgreeOn a names m (declOr a names stop n) f := fun f hf d hd b hb =>
      ih m ⟨d, false⟩ b (hn.nests ⟨rfl, f, hf, hd⟩) (hm.nests ⟨rfl, f, hf, hd⟩) hb
    rw [declOr, decl_succ]
    cases hx : a.decl? s.decl with
    | none => rw [declWith, declWith, hx]
    | some x =>
      cases x with
      | varDecl v => rw [declWith, declWith, hx]
      | funDecl f =>
        rw [declWith, declWith, hx]
        simp only [bind_run, checkType_run]
        exact (hagree f (.function hx)).function .func hb.nonempty
      | classDecl c =>
        rw [declWith_class hx, declWith_class hx]
        by_cases ho : s.outermost = true
        · rw [if_pos (hb.depth.2 ho), if_pos (hb.depth.2 ho)]
          exact classBody_agree (fun m hm => hagree m (.method ho hx hm)) b
        · rw [if_neg fun h0 => ho (hb.depth.1 h0), if_neg fun h0 => ho (hb.depth.1 h0)]

end Binder

namespace Program

open Binder

/-- Binds a program with a budget for its declarations, at whose end `stop` is done. -/
def bindOr (p : Program) (names : Names) (stop : DeclRef → BindM Unit) (n : Nat) : Bindings :=
  let globals : BindM Unit := do
    let _ ← inScope (.empty .global) do
      p.declarations.forM (declOr p.arena names stop n)
      whole p.arena names p.body
  let b := (globals (.start p.arena.nodes.size)).2
  ⟨b.resolutions, b.classes, b.errors⟩

variable {p : Program} {names : Names} {n : Nat}

/-- Binding a program is the case in which nothing is done at the end of the budget. -/
theorem bindOr_pure (p : Program) (names : Names) :
    p.bindOr names (fun _ => pure ()) (p.arena.decls.size + 1) = p.bind names := by
  unfold bindOr
  rw [declOr_pure]
  rfl

/-- **Binding a program ends by itself,** whatever would be done at the end of its budget. -/
theorem bindOr_eq (h : ∀ d, ¬TransGen (Contains p.arena) d d) (stop : DeclRef → BindM Unit) (hn : p.arena.decls.size < n) :
    p.bindOr names stop n = p.bind names := by
  have hopened : AtLevel true (opened p) := ⟨List.cons_ne_nil _ _, iff_of_true rfl rfl⟩
  have hdecls : p.declarations.forM (declOr p.arena names stop n) (opened p) =
      p.declarations.forM (decl p.arena names (p.arena.decls.size + 1)) (opened p) :=
    forM_agree (S := AtLevel true) (fun d _ b hb => ⟨declOr_eq stop n _ ⟨d, true⟩ b (Arena.reserve_of_acyclic h hn _)
      (Arena.reserve_of_acyclic h (Nat.lt_succ_self _) _) hb, hb.decl _ d⟩) hopened
  have hbinder : ∀ decls : BindM Unit, (do let _ ← inScope (.empty .global) (do decls; whole p.arena names p.body) :
      BindM Unit) (.start p.arena.nodes.size) = (do whole p.arena names p.body; leave : BindM Unit) (decls (opened p)).2 :=
    fun _ => rfl
  unfold bindOr bind bindGlobals
  simp only [hbinder, hdecls]

end Program

end Fool
