import Fool.Binding.Counted
import Mathlib.Tactic.Choose

/-!
# The counter of binding

`Keeps k c m` compares a step that has the counter with one that has not: where the counter is `k`, they do the same, and
the counter is `k` again behind the first one. An expression is bound with a counter as it is with the levels that are left
(`keeps_expr`). A declaration gives the counter back wherever it stands, and where it is 0, which is where declarations are
bound, it is bound as without a counter (`matches_decl`).
-/

namespace Fool

namespace Binder

namespace Counted

variable {α β : Type} {k : Nat} {c : CountM α} {m : BindM α}

/-- With the counter at `k`, the first step does what the second one does, and gives the counter back. -/
def Keeps (k : Nat) (c : CountM α) (m : BindM α) : Prop := ∀ b, c k b = (((m b).1, k), (m b).2)

/-- Wherever the counter stands, the first step gives it back; where it is 0, it does what the second one does. -/
def Matches (c : CountM α) (m : BindM α) : Prop := ∀ k, ∃ m', Keeps k c m' ∧ (k = 0 → m' = m)

/-! ## Steps -/

theorem keeps_pure (a : α) : Keeps k (pure a) (pure a) := fun _ => rfl

/-- A step that does not have the counter. -/
theorem keeps_lift (m : BindM α) : Keeps k (liftM m) m := fun _ => rfl

theorem keeps_modify (f : Binder → Binder) : Keeps k (modifyThe Binder f) (modify f) := fun _ => rfl

theorem keeps_get : Keeps k (getThe Binder) get := fun _ => rfl

theorem Keeps.bind {f : α → CountM β} {g : α → BindM β} (h : Keeps k c m) (hf : ∀ a, Keeps k (f a) (g a)) :
    Keeps k (c >>= f) (m >>= g) := by
  intro b
  have hfirst : (c >>= f) k b = f (c k b).1.1 (c k b).1.2 (c k b).2 := rfl
  rw [hfirst, h b]
  exact hf _ _

theorem keeps_forM {f : β → CountM Unit} {g : β → BindM Unit} (l : List β) (h : ∀ a ∈ l, Keeps k (f a) (g a)) :
    Keeps k (l.forM f) (l.forM g) := by
  induction l with
  | nil => exact keeps_pure ()
  | cons a l ih =>
    show Keeps k (f a >>= fun _ => l.forM f) (g a >>= fun _ => l.forM g)
    exact (h a List.mem_cons_self).bind fun _ => ih fun a ha => h a (List.mem_cons_of_mem _ ha)

variable (arena : Arena) (names : Names)

/-- Too deep, an expression is reported. -/
theorem keeps_nested_of_le (h : maxNesting ≤ k) (e : ExprRef) (body : CountM Unit) :
    Keeps k (nested arena e body) (report (.nestingTooDeep maxNesting) (arena.location? e)) := by
  intro b
  have hrun : nested arena e body k = (if maxNesting ≤ k then
      liftM (report (.nestingTooDeep maxNesting) (arena.location? e)) else do
        modifyThe Nat (· + 1)
        body
        modifyThe Nat (· - 1) : CountM Unit) k := rfl
  rw [hrun, if_pos h]
  rfl

/-- Where it is not, its parts are one level deeper. -/
theorem keeps_nested (h : k < maxNesting) (e : ExprRef) {body : CountM Unit} {m : BindM Unit} (hbody : Keeps (k + 1) body m) :
    Keeps k (nested arena e body) m := by
  intro b
  have hrun : nested arena e body k = (if maxNesting ≤ k then
      liftM (report (.nestingTooDeep maxNesting) (arena.location? e)) else do
        modifyThe Nat (· + 1)
        body
        modifyThe Nat (· - 1) : CountM Unit) k := rfl
  have hrest : (do
      modifyThe Nat (· + 1)
      body
      modifyThe Nat (· - 1) : CountM Unit) k b =
    (((), (body (k + 1) b).1.2 - 1), (body (k + 1) b).2) := rfl
  rw [hrun, if_neg (Nat.not_le_of_lt h), hrest, hbody b]
  rfl

/-! ## Expressions -/

/-- **An expression is bound as it is with the levels that are left.** -/
theorem keeps_expr : ∀ (n : Nat) (e : ExprRef) (k : Nat), maxNesting - k < n →
    Keeps k (expr arena names n e) (Binder.expr arena names (maxNesting - k) e)
  | 0, _, _, h => absurd h (Nat.not_lt_zero _)
  | n + 1, e, k, h => by
    rw [expr]
    rcases Nat.lt_or_ge k maxNesting with hlt | hle
    · obtain ⟨left, hleft⟩ : ∃ left, maxNesting - k = left + 1 := ⟨maxNesting - k - 1, by omega⟩
      have hparts : ∀ part, Keeps (k + 1) (expr arena names n part) (Binder.expr arena names left part) := by
        intro part
        have hpart := keeps_expr n part (k + 1) (by omega)
        rwa [show maxNesting - (k + 1) = left by omega] at hpart
      have hargs : ∀ args : List ExprRef,
          Keeps (k + 1) (args.forM (expr arena names n)) (args.forM (Binder.expr arena names left)) := fun args =>
        keeps_forM args fun part _ => hparts part
      refine keeps_nested arena hlt e ?_
      rw [hleft, Binder.expr]
      cases arena.expr? e with
      | none => exact keeps_pure ()
      | some x =>
        cases x with
        | int | bool | null => exact keeps_pure ()
        | binary => exact (hparts _).bind fun _ => keeps_forM _ fun right _ => hparts right.2
        | not operand | print operand => exact hparts operand
        | ifElse condition onTrue onFalse =>
          exact (hparts condition).bind fun _ => (hparts onTrue).bind fun _ => hparts onFalse
        | name name => exact keeps_lift _
        | call function args => exact (keeps_lift _).bind fun _ => hargs args
        | methodCall receiver method args => exact (keeps_lift _).bind fun _ => hargs args
        | new name args => exact (keeps_lift _).bind fun _ => hargs args
    · rw [Nat.sub_eq_zero_of_le hle]
      exact keeps_nested_of_le arena hle e _

/-! ## Declarations -/

theorem matches_of_keeps (h : ∀ k, Keeps k c m) : Matches c m := fun k => ⟨m, h k, fun _ => rfl⟩

theorem Matches.restores (h : Matches c m) (k : Nat) (b : Binder) : (c k b).1.2 = k := by
  obtain ⟨m', hm, -⟩ := h k
  rw [hm b]

theorem Matches.eq_of_zero (h : Matches c m) (b : Binder) : c 0 b = (((m b).1, 0), (m b).2) := by
  obtain ⟨m', hm, hzero⟩ := h 0
  rw [hm b, hzero rfl]

theorem Matches.bind {f : α → CountM β} {g : α → BindM β} (h : Matches c m) (hf : ∀ a, Matches (f a) (g a)) :
    Matches (c >>= f) (m >>= g) := by
  intro k
  obtain ⟨m', hm, hzero⟩ := h k
  choose g' hg hzero' using fun a => hf a k
  exact ⟨m' >>= g', hm.bind hg, fun hk => by rw [hzero hk, funext fun a => hzero' a hk]⟩

theorem matches_pure (a : α) : Matches (pure a) (pure a) := matches_of_keeps fun _ => keeps_pure a

theorem matches_lift (m : BindM α) : Matches (liftM m) m := matches_of_keeps fun _ => keeps_lift m

theorem matches_modify (f : Binder → Binder) : Matches (modifyThe Binder f) (modify f) :=
  matches_of_keeps fun _ => keeps_modify f

theorem matches_get : Matches (getThe Binder) get := matches_of_keeps fun _ => keeps_get

theorem matches_forM {f : β → CountM Unit} {g : β → BindM Unit} (l : List β) (h : ∀ a, Matches (f a) (g a)) :
    Matches (l.forM f) (l.forM g) := by
  intro k
  choose g' hg hzero using fun a => h a k
  exact ⟨l.forM g', keeps_forM l fun a _ => hg a, fun hk => by rw [funext fun a => hzero a hk]⟩

theorem Matches.inScope {body : CountM Unit} {m : BindM Unit} (h : Matches body m) (scope : Scope) :
    Matches (inScope scope body) (Binder.inScope scope m) :=
  (matches_modify _).bind fun _ => h.bind fun _ => matches_get.bind fun _ => (matches_modify _).bind fun _ => matches_pure _

/-- An expression that no other contains: where the counter is 0, all levels are left. -/
theorem matches_whole (e : ExprRef) : Matches (whole arena names e) (Binder.whole arena names e) := fun k =>
  ⟨_, keeps_expr arena names (maxNesting + 1) e k (Nat.lt_succ_of_le (Nat.sub_le _ _)), fun hk => by rw [hk]; rfl⟩

variable {bindLocal : DeclRef → CountM Unit} {bindLocal' : DeclRef → BindM Unit}

theorem matches_function (h : ∀ d, Matches (bindLocal d) (bindLocal' d)) (f : Function) (ty : CheckedType)
    (kind : EntryKind) :
    Matches (function arena names bindLocal f ty kind) (Binder.function arena names bindLocal' f ty kind) := by
  refine (matches_lift _).bind fun _ => (Matches.inScope ?_ _).bind fun _ => matches_pure ()
  exact (matches_lift _).bind fun _ => (matches_forM _ h).bind fun _ => matches_whole arena names f.body

theorem matches_classBody (h : ∀ d, Matches (bindLocal d) (bindLocal' d)) (cls : Class) :
    Matches (classBody arena names bindLocal cls) (Binder.classBody arena names bindLocal' cls) := by
  refine (matches_modify _).bind fun _ => (matches_lift _).bind fun shape => (matches_lift _).bind fun declared => ?_
  refine (Matches.inScope ?_ _).bind fun scope => (matches_modify _).bind fun _ => ?_
  · exact (matches_lift _).bind fun _ => matches_forM _ fun m => matches_function arena names h m.1 m.2 .method
  · cases declared with
    | false => exact matches_pure ()
    | true =>
      cases scope with
      | none => exact matches_pure ()
      | some scope => exact matches_modify _

/-- **A declaration gives the counter back,** and is bound as it is without one. -/
theorem matches_decl (n : Nat) (d : DeclRef) : Matches (decl arena names n d) (Binder.decl arena names n d) := by
  induction n generalizing d with
  | zero => exact matches_pure ()
  | succ n ih =>
    rw [decl, Binder.decl]
    cases arena.decl? d with
    | none => exact matches_pure ()
    | some x =>
      cases x with
      | varDecl v =>
        exact (matches_whole arena names v.init).bind fun _ => (matches_lift _).bind fun _ => (matches_lift _).bind fun _ =>
          matches_pure ()
      | funDecl f => exact (matches_lift _).bind fun _ => matches_function arena names ih f _ .func
      | classDecl cls =>
        refine matches_get.bind fun b => ?_
        split
        · exact matches_classBody arena names ih cls
        · exact matches_lift _

/-- **A program is bound as it is without a counter,** which is 0 in the end if it is 0 in the beginning. -/
theorem matches_program (p : Program) : Matches (program names p) (p.bindGlobals names) := by
  refine (Matches.inScope ?_ _).bind fun _ => matches_pure ()
  exact (matches_forM _ (matches_decl p.arena names _)).bind fun _ => matches_whole p.arena names p.body

end Counted

end Binder

end Fool
