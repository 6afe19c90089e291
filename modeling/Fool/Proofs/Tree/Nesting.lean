import Fool.Proofs.Tree.Chains

/-!
# How deep expressions are nested

`Arena.Nested follow n e` says that `e` is nested at most `n` levels deep, where a chain of operators that `follow`
allows counts as one level: behind such an operator a left operand with an operator of its own is on the level of
the whole. `nested_iff_leftSpine` says the same of the operands that the walk down the left operands finds, which
is how both passes over a chain see it.
-/

namespace Fool

namespace Arena

/-- The expression is nested at most so many levels deep, a chain of operators counting once. -/
inductive Nested (a : Arena) (follow : Operator → Bool) : Nat → ExprRef → Prop
  | node {n : Nat} {e : ExprRef} {x : Expr} : a.expr? e = some x → (∀ part ∈ x.parts, Nested a follow n part) →
      Nested a follow (n + 1) e
  | chain {n : Nat} {e left right left' right' : ExprRef} {op op' : Operator} :
      a.expr? e = some (.binary op left right) → follow op = true → a.expr? left = some (.binary op' left' right') →
      Nested a follow (n + 1) left → Nested a follow n right → Nested a follow (n + 1) e

variable {a : Arena} {follow : Operator → Bool}

theorem Nested.mono {n m : Nat} {e : ExprRef} (h : a.Nested follow n e) (hle : n ≤ m) : a.Nested follow m e := by
  induction h generalizing m with
  | node hx _ ih =>
    obtain ⟨m, rfl⟩ : ∃ k, m = k + 1 := ⟨m - 1, by omega⟩
    exact .node hx fun part hp => ih part hp (by omega)
  | chain hx hf hl _ _ ihl ihr =>
    obtain ⟨m, rfl⟩ : ∃ k, m = k + 1 := ⟨m - 1, by omega⟩
    exact .chain hx hf hl (ihl hle) (ihr (by omega))

theorem Nested.extends {a' : Arena} (hext : a.Extends a') {n : Nat} {e : ExprRef} (h : a.Nested follow n e) :
    a'.Nested follow n e := by
  induction h with
  | node hx _ ih => exact .node (hext.expr? hx) ih
  | chain hx hf hl _ _ ihl ihr => exact .chain (hext.expr? hx) hf (hext.expr? hl) ihl ihr

/-! ## The walk down the left operands -/

/-- The end of a walk down the left operands is nested `n` levels deep, or its operands are if it has an operator. -/
def HeadNested (a : Arena) (follow : Operator → Bool) (n : Nat) (e : ExprRef) : Prop :=
  match a.expr? e with
  | some (.binary _ left right) => a.Nested follow n left ∧ a.Nested follow n right
  | _ => a.Nested follow n e

theorem headNested_of_not_binary {n : Nat} {e : ExprRef}
    (h : ∀ op left right, a.expr? e ≠ some (.binary op left right)) :
    a.HeadNested follow n e ↔ a.Nested follow n e := by
  unfold HeadNested
  split
  · exact absurd ‹_› (h _ _ _)
  · rfl

theorem headNested_binary {n : Nat} {e left right : ExprRef} {op : Operator}
    (hx : a.expr? e = some (.binary op left right)) :
    a.HeadNested follow n e ↔ a.Nested follow n left ∧ a.Nested follow n right := by
  unfold HeadNested
  rw [hx]

theorem not_nested_zero {e : ExprRef} : ¬a.Nested follow 0 e := by
  intro h
  cases h

/-- An expression that is no operator is one level above its parts. -/
theorem nested_node_iff {n : Nat} {e : ExprRef} {x : Expr} (hx : a.expr? e = some x)
    (hop : ∀ op left right, x ≠ .binary op left right) :
    a.Nested follow (n + 1) e ↔ ∀ part ∈ x.parts, a.Nested follow n part := by
  constructor
  · intro h
    cases h with
    | node hy hp => cases hx.symm.trans hy; exact hp
    | chain hy _ _ _ _ => cases hx.symm.trans hy; exact absurd rfl (hop _ _ _)
  · exact fun h => .node hx h

/-- Where fewer chains count once, nothing is nested less deep. -/
theorem Nested.of_follow {follow' : Operator → Bool}
    (hf : ∀ e op left right, a.expr? e = some (.binary op left right) → follow op = true → follow' op = true) {n : Nat}
    {e : ExprRef} (h : a.Nested follow n e) : a.Nested follow' n e := by
  induction h with
  | node hx _ ih => exact .node hx ih
  | chain hx ho hl _ _ ihl ihr => exact .chain hx (hf _ _ _ _ hx ho) hl ihl ihr

theorem nested_binary_stop {n : Nat} {e left right : ExprRef} {op : Operator}
    (hx : a.expr? e = some (.binary op left right))
    (hs : follow op = false ∨ ∀ op' left' right', a.expr? left ≠ some (.binary op' left' right')) :
    a.Nested follow (n + 1) e ↔ a.Nested follow n left ∧ a.Nested follow n right := by
  constructor
  · intro h
    cases h with
    | node hy hp =>
      cases hx.symm.trans hy
      exact ⟨hp left (by simp [Expr.parts]), hp right (by simp [Expr.parts])⟩
    | chain hy hf hl =>
      cases hx.symm.trans hy
      rcases hs with hs | hs
      · rw [hs] at hf; cases hf
      · exact absurd hl (hs _ _ _)
  · rintro ⟨hl, hr⟩
    refine .node hx fun part hp => ?_
    simp only [Expr.parts, List.mem_cons, List.not_mem_nil, or_false] at hp
    rcases hp with rfl | rfl
    · exact hl
    · exact hr

theorem nested_binary_follow {n : Nat} {e left right left' right' : ExprRef} {op op' : Operator}
    (hx : a.expr? e = some (.binary op left right)) (hf : follow op = true)
    (hl : a.expr? left = some (.binary op' left' right')) :
    a.Nested follow (n + 1) e ↔ a.Nested follow (n + 1) left ∧ a.Nested follow n right := by
  constructor
  · intro h
    cases h with
    | node hy hp =>
      cases hx.symm.trans hy
      exact ⟨(hp left (by simp [Expr.parts])).mono (Nat.le_succ n), hp right (by simp [Expr.parts])⟩
    | chain hy _ _ hl' hr' =>
      cases hx.symm.trans hy
      exact ⟨hl', hr'⟩
  · rintro ⟨h1, h2⟩
    exact .chain hx hf hl h1 h2

/-- **An operator expression is as deep as the operands that the walk down its left operands finds.** -/
theorem Postordered.nested_iff_leftSpine (h : a.Postordered) {n : Nat} {e left right : ExprRef} {op : Operator}
    (hx : a.expr? e = some (.binary op left right)) :
    a.Nested follow (n + 1) e ↔ a.HeadNested follow n (a.leftSpine follow e).1 ∧
      ∀ p ∈ (a.leftSpine follow e).2, a.Nested follow n p.2 := by
  obtain ⟨i⟩ := e
  induction i using Nat.strongRecOn generalizing left right op with
  | _ i ih =>
    by_cases hf : follow op = true
    · rw [h.leftSpine_follow hx hf]
      by_cases hl : ∃ op' left' right', a.expr? left = some (.binary op' left' right')
      · obtain ⟨op', left', right', hl⟩ := hl
        have hlt := h.left_lt hx
        rw [nested_binary_follow hx hf hl, ih left.index hlt hl]
        simp only [List.mem_append, List.mem_singleton]
        constructor
        · rintro ⟨⟨h1, h2⟩, h3⟩
          refine ⟨h1, ?_⟩
          rintro p (hp | rfl)
          · exact h2 p hp
          · exact h3
        · rintro ⟨h1, h2⟩
          exact ⟨⟨h1, fun p hp => h2 p (Or.inl hp)⟩, h2 _ (Or.inr rfl)⟩
      · simp only [not_exists] at hl
        rw [nested_binary_stop hx (Or.inr hl), leftSpine_stop fun op' l r hx' => absurd hx' (hl op' l r),
          headNested_of_not_binary hl]
        simp
    · have hf' : follow op = false := by simpa using hf
      rw [nested_binary_stop hx (Or.inl hf'), leftSpine_stop fun op' l r hx' => by cases hx.symm.trans hx'; exact hf',
        headNested_binary hx]
      simp

end Arena

end Fool
