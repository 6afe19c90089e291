import Fool.Proofs.Semantics.Stages

/-!
# More fuel

An evaluation that comes to an end comes to the same end with more fuel (`outlasts_expr`), for each of its parts does.
So the stages of an evaluation are stages with more fuel too (`Leads.more`, `Reached.more`).
-/

namespace Fool

namespace Reference

section

variable {α β : Type} {m m' : EvalM α} {w w' : World}

/-- The second evaluation ends as the first one does, unless that runs out of fuel. -/
def Outlasts (m m' : EvalM α) : Prop := ∀ w, (∃ w', m w = .error .outOfFuel w') ∨ m' w = m w

theorem outlasts_refl (m : EvalM α) : Outlasts m m := fun _ => .inr rfl

theorem Outlasts.ok {x : α} (h : Outlasts m m') (hrun : m w = .ok x w') : m' w = .ok x w' := by
  rcases h w with ⟨w₁, hfuel⟩ | hsame
  · cases hrun.symm.trans hfuel
  · exact hsame.trans hrun

theorem Outlasts.trans {m'' : EvalM α} (h : Outlasts m m') (h' : Outlasts m' m'') : Outlasts m m'' := by
  intro w
  rcases h w with hfuel | hsame
  · exact .inl hfuel
  · rcases h' w with ⟨w', hfuel⟩ | hsame'
    · exact .inl ⟨w', hsame.symm.trans hfuel⟩
    · exact .inr (hsame'.trans hsame)

theorem outlasts_bind {f f' : α → EvalM β} (hm : Outlasts m m') (hf : ∀ x, Outlasts (f x) (f' x)) :
    Outlasts (m >>= f) (m' >>= f') := by
  intro w
  show (∃ w', EStateM.bind m f w = .error .outOfFuel w') ∨ EStateM.bind m' f' w = EStateM.bind m f w
  unfold EStateM.bind
  rcases hm w with ⟨w₁, hfuel⟩ | hsame
  · rw [hfuel]
    exact .inl ⟨w₁, rfl⟩
  · rw [hsame]
    cases m w with
    | ok x w₁ => exact hf x w₁
    | error e w₁ => exact .inr rfl

theorem outlasts_mapM {f f' : α → EvalM β} (h : ∀ x, Outlasts (f x) (f' x)) (xs : List α) :
    Outlasts (xs.mapM f) (xs.mapM f') := by
  induction xs with
  | nil => exact outlasts_refl _
  | cons x xs ih =>
    rw [List.mapM_cons, List.mapM_cons]
    exact outlasts_bind (h x) fun y => outlasts_bind ih fun ys => outlasts_refl _

theorem outlasts_foldlM {f f' : β → α → EvalM β} (h : ∀ y x, Outlasts (f y x) (f' y x)) (xs : List α) (y : β) :
    Outlasts (xs.foldlM f y) (xs.foldlM f' y) := by
  induction xs generalizing y with
  | nil => exact outlasts_refl _
  | cons x xs ih =>
    rw [List.foldlM_cons, List.foldlM_cons]
    exact outlasts_bind (h y x) fun y' => ih y'

end

variable {arena : Arena} {eval eval' : Env → ExprRef → EvalM Value}

theorem outlasts_declare (h : ∀ env e, Outlasts (eval env e) (eval' env e)) (env : Env) (d : DeclRef) :
    Outlasts (declare arena eval env d) (declare arena eval' env d) := by
  unfold declare
  cases arena.decl? d with
  | none => exact outlasts_refl _
  | some x =>
    cases x with
    | varDecl v => exact outlasts_bind (h env v.init) fun y => outlasts_refl _
    | funDecl f => exact outlasts_refl _
    | classDecl c => exact outlasts_refl _

theorem outlasts_enter (h : ∀ env e, Outlasts (eval env e) (eval' env e)) (f : Function) (env : Env) (args : List Value) :
    Outlasts (enter arena eval f env args) (enter arena eval' f env args) := by
  unfold enter
  by_cases hlength : args.length = f.params.length
  · rw [if_pos hlength, if_pos hlength]
    exact outlasts_bind (outlasts_foldlM (outlasts_declare h) _ _) fun env' => h env' f.body
  · rw [if_neg hlength, if_neg hlength]
    exact outlasts_refl _

/-- **More fuel does not change what an expression evaluates to.** -/
theorem outlasts_expr (n : Nat) (env : Env) (e : ExprRef) : Outlasts (expr arena n env e) (expr arena (n + 1) env e) := by
  induction n generalizing env e with
  | zero => exact fun w => .inl ⟨w, rfl⟩
  | succ n ih =>
    unfold expr
    cases arena.expr? e with
    | none => exact outlasts_refl _
    | some x =>
      cases x with
      | binary op left right =>
        cases op with
        | or =>
          refine outlasts_bind (ih env left) fun v => outlasts_bind (outlasts_refl _) fun x => ?_
          split
          · exact outlasts_refl _
          · exact outlasts_bind (ih env right) fun v' => outlasts_refl _
        | greaterEqual => exact outlasts_bind (ih env right) fun y => outlasts_bind (ih env left) fun x => outlasts_refl _
        | _ => exact outlasts_bind (ih env left) fun x => outlasts_bind (ih env right) fun y => outlasts_refl _
      | not operand => exact outlasts_bind (ih env operand) fun v => outlasts_refl _
      | ifElse condition onTrue onFalse =>
        refine outlasts_bind (ih env condition) fun v => outlasts_bind (outlasts_refl _) fun x => ?_
        split
        · exact ih env onTrue
        · exact ih env onFalse
      | print operand => exact outlasts_bind (ih env operand) fun v => outlasts_refl _
      | call function args =>
        exact outlasts_bind (outlasts_mapM (ih env) _) fun values => outlasts_bind (outlasts_refl _) fun q =>
          outlasts_enter ih _ _ _
      | methodCall receiver method args =>
        exact outlasts_bind (outlasts_mapM (ih env) _) fun values => outlasts_bind (outlasts_refl _) fun q =>
          outlasts_enter ih _ _ _
      | new name args => exact outlasts_bind (outlasts_mapM (ih env) _) fun values => outlasts_refl _
      | _ => exact outlasts_refl _

/-- The stage with more fuel. -/
def Stage.more (S : Stage) (d : Nat) : Stage := { S with fuel := S.fuel + d }

/-- **With more fuel an evaluation goes through the same stages.** -/
theorem Leads.more {S S' : Stage} (h : Leads arena S S') : Leads arena (S.more 1) (S'.more 1) := by
  cases h with
  | operand hx hoperands hdone => exact .operand hx hoperands ((outlasts_mapM (outlasts_expr _ _) _).ok hdone)
  | branch hx hv hbranch => exact .branch hx ((outlasts_mapM (outlasts_expr _ _) _).ok hv) hbranch
  | enter hx htarget hvs hq hlength =>
    exact .enter hx htarget ((outlasts_mapM (outlasts_expr _ _) _).ok hvs) hq hlength
  | init hx => exact .init hx
  | declared hd => exact .declared ((outlasts_declare (outlasts_expr _) _ _).ok hd)
  | body => exact .body
  | value hv => exact .value ((outlasts_expr _ _ _).ok hv)

/-- So a stage with more fuel belongs to an evaluation of the program. -/
theorem Reached.more {p : Program} {S : Stage} (h : Reached p S) (d : Nat) : Reached p (S.more d) := by
  induction d with
  | zero => exact h
  | succ d ih =>
    obtain ⟨n, hleads⟩ := ih
    exact ⟨n + 1, hleads.lift (Stage.more · 1) fun _ _ => Leads.more⟩

end Reference

end Fool
