import Fool.Proofs.Binding.Frame
import Fool.Proofs.Tree.Chains

/-!
# A chain of operators is bound operator by operator

`plain` binds an expression operator by operator: the left operand, then the right one, a level of nesting for every
operator. `expr` walks down a whole chain instead, and a chain is one level. Where the plain way does not give up for want
of levels, both leave the same state (`Follows`): one operator more at the end of a chain binds one operand more
(`boundSpine_concat`), and more levels change nothing (`follows_expr`). Where the plain way gives up nowhere, every walk
down the left operands ends (`stops_of_plain`), be the arena a tree or not.
-/

namespace Fool

namespace Binder

/-! ## Binding operator by operator -/

section Plain

variable (arena : Arena) (names : Names)

/-- Binds an expression by a visit to it and by binding its parts from left to right; every expression is a level of
nesting. -/
def plain : Nat → ExprRef → BindM Unit
  | 0, e => report (.nestingTooDeep maxNesting) (arena.location? e)
  | n + 1, e =>
    match arena.expr? e with
    | none => pure ()
    | some x => do
      refer arena names e x
      x.parts.forM (plain n)

end Plain

/-! ## Where binding gives up -/

/-- The faults that a step adds. -/
def added {α : Type} (m : BindM α) (b : Binder) : List BindError := (m b).2.errors.drop b.errors.length

/-- The step gives up at some expression, for want of levels. -/
def GivesUp {α : Type} (m : BindM α) (b : Binder) : Prop :=
  ∃ err ∈ added m b, err.cause = .nestingTooDeep maxNesting

/-- The step takes no fault back. -/
def Appends {α : Type} (m : BindM α) : Prop := ∀ b, b.errors <+: (m b).2.errors

variable {α β : Type} {m m' : BindM α} {f f' : α → BindM β} {b : Binder}

theorem appends_pure (x : α) : Appends (pure x) := fun _ => List.prefix_rfl

theorem Appends.bind (hm : Appends m) (hf : ∀ x, Appends (f x)) : Appends (m >>= f) := fun b =>
  (hm b).trans (hf _ _)

theorem appends_forM {γ : Type} {f : γ → BindM Unit} (h : ∀ x, Appends (f x)) (xs : List γ) : Appends (xs.forM f) :=
  forM_keeps (K := fun b b' => b.errors <+: b'.errors) (fun _ => List.prefix_rfl) List.IsPrefix.trans fun x _ => h x

/-- What two steps add. -/
theorem added_bind (hm : Appends m) (hf : ∀ x, Appends (f x)) (b : Binder) :
    added (m >>= f) b = added m b ++ added (f (m b).1) (m b).2 := by
  obtain ⟨new, hnew⟩ := hm b
  obtain ⟨more, hmore⟩ := hf (m b).1 (m b).2
  simp only [added, bind_run, ← hmore, ← hnew]
  simp

theorem givesUp_bind (hm : Appends m) (hf : ∀ x, Appends (f x)) :
    GivesUp (m >>= f) b ↔ GivesUp m b ∨ GivesUp (f (m b).1) (m b).2 := by
  simp only [GivesUp, added_bind hm hf, List.mem_append, or_and_right, exists_or]

theorem appends_expr (a : Arena) (names : Names) (n : Nat) (e : ExprRef) : Appends (expr a names n e) := fun b =>
  (expr_frames a names n e b).errors

theorem appends_refer (a : Arena) (names : Names) (e : ExprRef) (x : Expr) : Appends (refer a names e x) := fun b =>
  (touches_refer a e x b).errors

theorem appends_plain (a : Arena) (names : Names) (n : Nat) (e : ExprRef) : Appends (plain a names n e) := by
  induction n generalizing e with
  | zero => exact fun b => List.prefix_append _ _
  | succ n ih =>
    rw [plain]
    cases a.expr? e with
    | none => exact appends_pure ()
    | some x => exact (appends_refer a names e x).bind fun _ => appends_forM ih x.parts

/-! ## Steps that follow others as long as those have levels left -/

/-- Where `m` gives up nowhere, `m'` does the same. -/
structure Follows (m' m : BindM α) : Prop where
  appends : Appends m
  eq : ∀ b, ¬GivesUp m b → m' b = m b

theorem Follows.refl (h : Appends m) : Follows m m := ⟨h, fun _ _ => rfl⟩

theorem Follows.bind (hm : Follows m' m) (hf : ∀ x, Follows (f' x) (f x)) : Follows (m' >>= f') (m >>= f) := by
  refine ⟨hm.appends.bind fun x => (hf x).appends, fun b hb => ?_⟩
  rw [givesUp_bind hm.appends fun x => (hf x).appends, not_or] at hb
  rw [bind_run, bind_run, hm.eq b hb.1]
  exact (hf _).eq _ hb.2

theorem Follows.forM {γ : Type} {f' f : γ → BindM Unit} (h : ∀ x, Follows (f' x) (f x)) : ∀ xs : List γ,
    Follows (xs.forM f') (xs.forM f)
  | [] => .refl (appends_pure ())
  | x :: xs => by
    rw [List.forM_eq_forM, List.forM_cons, List.forM_cons]
    exact (h x).bind fun _ => Follows.forM h xs

variable {a : Arena} {names : Names} {n k : Nat} {e left right : ExprRef} {op : Operator} {x : Expr}

theorem plain_node (hx : a.expr? e = some x) :
    plain a names (n + 1) e = (do refer a names e x; x.parts.forM (plain a names n)) := by
  rw [plain, hx]

theorem plain_binary (hx : a.expr? e = some (.binary op left right)) :
    plain a names (n + 1) e = (do plain a names n left; plain a names n right) := by
  rw [plain_node hx]
  simp [refer, Expr.parts]

/-- Without levels there is nothing else than giving up. -/
theorem givesUp_zero (a : Arena) (names : Names) (e : ExprRef) (b : Binder) : GivesUp (plain a names 0 e) b :=
  ⟨⟨.nestingTooDeep maxNesting, a.location? e⟩, by simp [added, plain], rfl⟩

/-- Where the operands are bound without giving up, so are those on the left, down to the last. -/
theorem stops_of_plain (n : Nat) : ∀ {e : ExprRef} {b : Binder}, ¬GivesUp (plain a names n e) b →
    ∃ k, a.Stops (fun _ => true) k e := by
  induction n with
  | zero => exact fun h => absurd (givesUp_zero a names _ _) h
  | succ n ih =>
    intro e b h
    by_cases hop : ∃ op left right, a.expr? e = some (.binary op left right)
    · obtain ⟨op, left, right, hx⟩ := hop
      rw [plain_binary hx, givesUp_bind (appends_plain a names n left) fun _ => appends_plain a names n right, not_or] at h
      obtain ⟨k, hk⟩ := ih h.1
      exact ⟨k + 1, .left hx rfl hk⟩
    · exact ⟨0, .here fun op left right hx => absurd ⟨op, left, right, hx⟩ hop⟩

/-! ## Chains -/

/-- Binds the operands found on a walk down the left operands. -/
def boundSpine (operand : ExprRef → BindM Unit) (spine : ExprRef × List (Operator × ExprRef)) : BindM Unit := do
  operand spine.1
  spine.2.forM fun (_, right) => operand right

theorem expr_binary (hx : a.expr? e = some (.binary op left right)) :
    expr a names (n + 1) e = boundSpine (expr a names n) (a.leftSpine (fun _ => true) e) := by
  rw [expr, hx]
  rfl

/-- A chain without operators is an operand. -/
theorem boundSpine_nil (operand : ExprRef → BindM Unit) (e : ExprRef) : boundSpine operand (e, []) = operand e := by
  simp [boundSpine]

/-- One operator more at the end of a chain. -/
theorem boundSpine_concat (operand : ExprRef → BindM Unit) (spine : ExprRef × List (Operator × ExprRef)) (op : Operator)
    (right : ExprRef) :
    boundSpine operand (spine.1, spine.2 ++ [(op, right)]) = (do boundSpine operand spine; operand right) := by
  simp [boundSpine]

/-- **A chain is bound as its last operator is bound operator by operator,** if the walk down its left operands ends. -/
theorem follows_spine {operand : ExprRef → BindM Unit} (h : ∀ m ≤ n, ∀ e, Follows (operand e) (plain a names m e))
    (hk : a.Stops (fun _ => true) k e) : ∀ {m : Nat} {left right : ExprRef} {op : Operator}, m ≤ n →
      a.expr? e = some (.binary op left right) →
      Follows (boundSpine operand (a.leftSpine (fun _ => true) e)) (plain a names (m + 1) e) := by
  induction hk with
  | here hstop => exact fun _ hx => absurd (hstop _ _ _ hx) (by simp)
  | @left k e left right op hx hop hleft ih =>
    intro m _ _ _ hm _
    rw [hleft.leftSpine_follow hx hop, boundSpine_concat, plain_binary hx]
    refine Follows.bind ?_ fun _ => h m hm right
    -- the left operand is the rest of the chain, or an operand as any other
    by_cases hl : ∃ op' left' right', a.expr? left = some (.binary op' left' right')
    · obtain ⟨op', left', right', hl⟩ := hl
      cases m with
      | zero => exact ⟨appends_plain a names 0 left, fun b hb => absurd (givesUp_zero a names left b) hb⟩
      | succ m => exact ih (by omega) hl
    · simp only [not_exists] at hl
      rw [Arena.leftSpine_stop fun op' l r hx' => absurd hx' (hl op' l r), boundSpine_nil]
      exact h m hm left

/-- More levels do not change how an expression is bound, and chains do not either. -/
theorem follows_expr {m : Nat} (h : m ≤ n) (e : ExprRef) : Follows (expr a names n e) (plain a names m e) := by
  induction n generalizing m e with
  | zero =>
    obtain rfl : m = 0 := by omega
    exact .refl (appends_plain a names 0 e)
  | succ n ih =>
    cases m with
    | zero => exact ⟨appends_plain a names 0 e, fun b hb => absurd (givesUp_zero a names e b) hb⟩
    | succ m =>
      cases hx : a.expr? e with
      | none =>
        rw [expr, plain, hx]
        exact .refl (appends_pure ())
      | some x =>
        by_cases hop : ∃ op left right, x = .binary op left right
        · obtain ⟨op, left, right, rfl⟩ := hop
          refine ⟨appends_plain a names (m + 1) e, fun b hb => ?_⟩
          obtain ⟨k, hk⟩ := stops_of_plain (m + 1) hb
          rw [expr_binary hx]
          exact (follows_spine (fun m' hm' => ih hm') hk (by omega : m ≤ n) hx).eq b hb
        · rw [expr_node hx fun op left right heq => hop ⟨op, left, right, heq⟩, plain_node hx]
          exact (Follows.refl (appends_refer a names e x)).bind fun _ =>
            Follows.forM (fun part => ih (by omega : m ≤ n) part) x.parts

/-- **A chain of operators is bound as its operators are, one after the other.** Both ways only add faults. Where the
plain way, which binds the left operand and then the right one, has levels enough, walking down the chain leaves the same
state: the same meanings, and the same faults in the same order. Where walking down the chain gives up, so does the plain
way. -/
theorem expr_eq_plain (a : Arena) (names : Names) (n : Nat) {e left right : ExprRef} {op : Operator}
    (hx : a.expr? e = some (.binary op left right)) (b : Binder) :
    (expr a names (n + 1) e b).2.errors = b.errors ++ added (expr a names (n + 1) e) b ∧
      (do plain a names n left; plain a names n right : BindM Unit) b = plain a names (n + 1) e b ∧
      (plain a names (n + 1) e b).2.errors = b.errors ++ added (plain a names (n + 1) e) b ∧
      (¬GivesUp (plain a names (n + 1) e) b → expr a names (n + 1) e b = plain a names (n + 1) e b) ∧
      (GivesUp (expr a names (n + 1) e) b → GivesUp (plain a names (n + 1) e) b) := by
  have hfollows : Follows (expr a names (n + 1) e) (plain a names (n + 1) e) := follows_expr (Nat.le_refl _) e
  have hadded : ∀ {m : BindM Unit}, Appends m → (m b).2.errors = b.errors ++ added m b := fun hm =>
    (List.prefix_iff_eq_append.1 (hm b)).symm
  refine ⟨hadded (appends_expr a names _ e), by rw [plain_binary hx], hadded hfollows.appends, hfollows.eq b, ?_⟩
  intro hup
  by_contra hnot
  have heq := hfollows.eq b hnot
  exact hnot (by rwa [GivesUp, added, heq] at hup)

/-- `x - (x - x) - (x - x)`; the brackets are one expression, and so are the names. -/
def sharedDifference : Arena :=
  ⟨#[⟨.name ⟨0⟩, none⟩, ⟨.binary .sub ⟨0⟩ ⟨0⟩, none⟩, ⟨.binary .sub ⟨0⟩ ⟨1⟩, none⟩, ⟨.binary .sub ⟨2⟩ ⟨1⟩, none⟩], #[]⟩

/-- Four levels are enough for the plain way: both ways report the unknown name five times. -/
theorem expr_eq_plain_sharedDifference :
    sharedDifference.expr? ⟨3⟩ = some (.binary .sub ⟨2⟩ ⟨1⟩) ∧
      ¬GivesUp (plain sharedDifference ⟨#["x"]⟩ 4 ⟨3⟩) (start 4) ∧
      expr sharedDifference ⟨#["x"]⟩ 4 ⟨3⟩ (start 4) = plain sharedDifference ⟨#["x"]⟩ 4 ⟨3⟩ (start 4) ∧
      (expr sharedDifference ⟨#["x"]⟩ 4 ⟨3⟩ (start 4)).2.errors =
        List.replicate 5 ⟨.unresolvedIdentifier "x", none⟩ := by
  have hx : sharedDifference.expr? ⟨3⟩ = some (.binary .sub ⟨2⟩ ⟨1⟩) := rfl
  have hup : ¬GivesUp (plain sharedDifference ⟨#["x"]⟩ 4 ⟨3⟩) (start 4) := by
    unfold GivesUp
    decide +kernel
  have heq := (expr_eq_plain sharedDifference ⟨#["x"]⟩ 3 hx (start 4)).2.2.2.1 hup
  exact ⟨hx, hup, heq, by decide +kernel⟩

end Binder

end Fool
