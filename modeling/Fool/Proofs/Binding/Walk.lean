import Fool.Binding.Exprs
import Fool.Proofs.Tree.Nesting

/-!
# Binding an expression visits every expression below it once

Binding gives up below `maxNesting` levels only, and a chain of operators counts once. An expression that is not
nested deeper is bound by a visit to it and to everything below it, the whole before its parts (`expr_eq_walk`).
-/

namespace Fool

namespace Binder

variable (a : Arena) (names : Names)

/-- What binding does at an expression itself. -/
def refer (e : ExprRef) : Expr → BindM Unit
  | .name name => resolveValue a names e name
  | .call function _ => do
    let _ ← resolveName a names e function
  | .methodCall receiver method _ => resolveMethod a names e receiver method
  | .new name _ => resolveNew a names e name
  | _ => pure ()

/-- What binding does at the expression with a number. -/
def visit (e : ExprRef) : BindM Unit :=
  match a.expr? e with
  | some x => refer a names e x
  | none => pure ()

/-- Visits expressions one after the other. -/
def visitAll (es : List ExprRef) : BindM Unit := es.forM (visit a names)

variable {a names}

theorem visitAll_cons (e : ExprRef) (es : List ExprRef) :
    visitAll a names (e :: es) = (do visit a names e; visitAll a names es) := by
  simp [visitAll]

theorem visitAll_append (es fs : List ExprRef) :
    visitAll a names (es ++ fs) = (do visitAll a names es; visitAll a names fs) := by
  simp [visitAll]

theorem visit_eq {e : ExprRef} {x : Expr} (hx : a.expr? e = some x) : visit a names e = refer a names e x := by
  rw [visit, hx]

/-- A walk begins with the visit to the whole. -/
theorem visitAll_walk (hpost : a.Postordered) {e : ExprRef} {x : Expr} (hx : a.expr? e = some x) :
    visitAll a names (a.walk e) = (do refer a names e x; visitAll a names (x.parts.flatMap a.walk)) := by
  rw [hpost.walk_eq hx, visitAll_cons, visit_eq hx]

/-- Parts that are bound by visits are visited one after the other. -/
theorem forM_eq_visitAll {n : Nat} : ∀ {es : List ExprRef},
    (∀ e ∈ es, expr a names n e = visitAll a names (a.walk e)) →
    es.forM (expr a names n) = visitAll a names (es.flatMap a.walk)
  | [], _ => rfl
  | e :: es, h => by
    have hrest := forM_eq_visitAll fun e he => h e (List.mem_cons_of_mem _ he)
    rw [List.flatMap_cons, visitAll_append, ← h e List.mem_cons_self, ← hrest]
    rfl

/-- The walk of an operator expression is that of its operands, for binding. -/
theorem visitAll_binary (hpost : a.Postordered) {e left right : ExprRef} {op : Operator}
    (hx : a.expr? e = some (.binary op left right)) :
    visitAll a names (a.walk e) = (do visitAll a names (a.walk left); visitAll a names (a.walk right)) := by
  rw [visitAll_walk hpost hx]
  simp [refer, Expr.parts, visitAll_append]

/-- The operands that the walk down the left operands finds are bound by visits, if the operands of less depth are. -/
theorem bind_spine (hpost : a.Postordered) {n : Nat}
    (ih : ∀ e, a.Nested (fun _ => true) n e → expr a names n e = visitAll a names (a.walk e)) :
    ∀ {e left right : ExprRef} {op : Operator}, a.expr? e = some (.binary op left right) →
      a.Nested (fun _ => true) (n + 1) e →
      (do
        expr a names n (a.leftSpine (fun _ => true) e).1
        (a.leftSpine (fun _ => true) e).2.forM fun (_, right) => expr a names n right) =
        visitAll a names (a.walk e) := by
  intro e
  obtain ⟨i⟩ := e
  induction i using Nat.strongRecOn with
  | _ i ihi =>
    intro left right op hx hn
    rw [hpost.leftSpine_follow hx rfl, visitAll_binary hpost hx]
    by_cases hl : ∃ op' left' right', a.expr? left = some (.binary op' left' right')
    · obtain ⟨op', left', right', hl⟩ := hl
      obtain ⟨hnl, hnr⟩ := (Arena.nested_binary_follow hx rfl hl).1 hn
      have hleft := ihi left.index (hpost.left_lt hx) hl hnl
      simp only [List.forM_eq_forM] at hleft ⊢
      rw [List.forM_append, ← bind_assoc, hleft, List.forM_cons, List.forM_nil, ih right hnr]
      rfl
    · simp only [not_exists] at hl
      obtain ⟨hnl, hnr⟩ := (Arena.nested_binary_stop hx (Or.inr hl)).1 hn
      rw [Arena.leftSpine_stop fun op' l r hx' => absurd hx' (hl op' l r)]
      simp only [List.nil_append, List.forM_eq_forM, List.forM_cons, List.forM_nil]
      rw [ih left hnl, ih right hnr]
      rfl

/-- **An expression that is not nested too deep is bound by a visit to everything below it.** -/
theorem expr_eq_walk (hpost : a.Postordered) : ∀ {n : Nat} {e : ExprRef}, a.Nested (fun _ => true) n e →
    expr a names n e = visitAll a names (a.walk e) := by
  intro n
  induction n with
  | zero => intro e hn; cases hn
  | succ n ih =>
    intro e hn
    obtain ⟨x, hx⟩ : ∃ x, a.expr? e = some x := by
      cases hn with
      | node hx _ => exact ⟨_, hx⟩
      | chain hx _ _ _ _ => exact ⟨_, hx⟩
    by_cases hop : ∃ op left right, x = .binary op left right
    · obtain ⟨op, left, right, rfl⟩ := hop
      rw [← bind_spine hpost (fun e he => ih he) hx hn, expr, hx]
    · have hparts : ∀ part ∈ x.parts, a.Nested (fun _ => true) n part := by
        cases hn with
        | node hy hp => cases hx.symm.trans hy; exact hp
        | chain hy _ _ _ _ => cases hx.symm.trans hy; exact absurd ⟨_, _, _, rfl⟩ hop
      have hbound := forM_eq_visitAll fun part hp => ih (hparts part hp)
      rw [visitAll_walk hpost hx, ← hbound, expr, hx]
      cases x with
      | binary op left right => exact absurd ⟨_, _, _, rfl⟩ hop
      | int v => rfl
      | bool b => rfl
      | null => rfl
      | not operand => simp [refer, Expr.parts]
      | print operand => simp [refer, Expr.parts]
      | ifElse condition onTrue onFalse => simp [refer, Expr.parts]
      | name name => simp [refer, Expr.parts]
      | call function args => simp [refer, Expr.parts]
      | methodCall receiver method args => simp [refer, Expr.parts]
      | new name args => simp [refer, Expr.parts]

end Binder

end Fool
