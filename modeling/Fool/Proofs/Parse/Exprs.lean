import Fool.Proofs.Parse.Quiet
import Fool.Proofs.Tree.Layout

/-!
# Reading expressions builds trees

`Built k s es s'` says that between the states `s` and `s'` exactly the expressions `es` have been added, with all
their parts, each nested at most `k` levels deep (a chain of operators counts once). Four levels of operators and one
primary expression cost five levels of nesting for one level of the parser, so at depth `d` an expression is nested
at most `5 * (maxDepth - d)` levels deep (`readsExpr_expression`).
-/

namespace Fool

namespace Grammar

open Fool.Parser

variable {k d : Nat} {s s₁ s' : Parser}

/-- Exactly these expressions have been added, with all their parts. -/
structure Built (k : Nat) (s : Parser) (es : List ExprRef) (s' : Parser) : Prop where
  grown : s.arena.Extends s'.arena
  postordered : s'.arena.Postordered
  fill : s'.arena.Fill k s.arena.stop es s'.arena.stop
  depth : s'.depth = s.depth

theorem Built.of_same (hs : s.arena.Postordered) (h : Same s s') : Built k s [] s' where
  grown := by rw [h.arena]; exact .refl _
  postordered := by rw [h.arena]; exact hs
  fill := by rw [h.arena]; exact ⟨rfl, rfl, fun e he => by cases he⟩
  depth := h.depth

theorem Built.append {es fs : List ExprRef} (h : Built k s es s₁) (h' : Built k s₁ fs s') :
    Built k s (es ++ fs) s' where
  grown := h.grown.trans h'.grown
  postordered := h'.postordered
  fill := (h.fill.extends h'.grown).append h'.fill
  depth := h'.depth.trans h.depth

theorem Built.mono {k' : Nat} {es : List ExprRef} (h : Built k s es s') (hle : k ≤ k') : Built k' s es s' :=
  { h with fill := h.fill.mono hle }

theorem Built.behind {es : List ExprRef} (h : Built k s es s₁) (hs : Same s₁ s') : Built k s es s' := by
  simpa using h.append (Built.of_same h.postordered hs)

theorem Built.ahead {es : List ExprRef} (hs : s.arena.Postordered) (h : Same s s₁) (h' : Built k s₁ es s') :
    Built k s es s' :=
  (Built.of_same hs h).append h'

theorem same_postordered (hs : s.arena.Postordered) (h : Same s s') : s'.arena.Postordered := by
  rw [h.arena]; exact hs

/-- An expression is added behind its parts; `hk` says how deep that makes it. -/
theorem Built.addExpr_of {n : Nat} {x : Expr} {place : Location} {e : ExprRef} (h : Built n s x.parts s₁)
    (hadd : addExpr x place s₁ = .ok e s')
    (hk : ∀ {a : Arena}, s₁.arena.Extends a → a.expr? e = some x → a.Nested (fun _ => true) k e) :
    Built k s [e] s' := by
  cases hadd
  have hext := s₁.arena.extends_addExpr x (some place)
  have hx := s₁.arena.expr?_addExpr_self x (some place)
  have hfirst := Arena.first_addExpr (some place) h.fill.1
  have hlt := Arena.lt_size_of_expr? hx
  refine ⟨h.grown.trans hext, h.postordered.addExpr _ h.fill.1, ⟨?_, h.fill.2.1, ?_⟩, h.depth⟩
  · have ht := Arena.Tiles.singleton hfirst hlt
    simpa [Arena.stop, Arena.addExpr] using ht
  · intro e' he'
    rw [List.mem_singleton] at he'
    subst he'
    exact hk hext hx

theorem Built.addExpr {x : Expr} {place : Location} {e : ExprRef} (h : Built k s x.parts s₁)
    (hadd : Parser.addExpr x place s₁ = .ok e s') : Built (k + 1) s [e] s' :=
  h.addExpr_of hadd fun hext hx => .node hx fun part hp => (h.fill.2.2 part hp).extends hext

/-- The step, begun at depth `d`, reads an expression nested at most `k` levels deep. -/
def ReadsExpr (k d : Nat) (p : ParseM ExprRef) : Prop :=
  ∀ (s : Parser) (e : ExprRef) (s' : Parser), s.arena.Postordered → s.depth = d → p s = .ok e s' → Built k s [e] s'

theorem ReadsExpr.mono {k' : Nat} {p : ParseM ExprRef} (h : ReadsExpr k d p) (hle : k ≤ k') : ReadsExpr k' d p :=
  fun s e s' hs hd hp => (h s e s' hs hd hp).mono hle

theorem ReadsExpr.nested {p : ParseM ExprRef} (h : d < maxDepth → ReadsExpr k (d + 1) p) :
    ReadsExpr k d (nested p) := by
  intro s e s' hs hd hp
  obtain ⟨hlt, s₁, h₁, rfl⟩ := nested_ok hp
  rw [hd] at hlt
  have hb := h hlt { s with depth := s.depth + 1 } e s₁ hs (by rw [hd]) h₁
  have hdepth := hb.depth
  exact ⟨hb.grown, hb.postordered, hb.fill, by simp_all⟩

/-! ## Operators -/

/-- The left operand of a chain that is being read: its operators, if it has any, belong to the chain. -/
def ChainLeft (a : Arena) (k : Nat) (left : ExprRef) : Prop :=
  a.Nested (fun _ => true) k left ∨
    (∃ op l r, a.expr? left = some (.binary op l r)) ∧ a.Nested (fun _ => true) (k + 1) left

theorem ChainLeft.binary {a : Arena} {op : Operator} {left right e : ExprRef} (h : ChainLeft a k left)
    (hr : a.Nested (fun _ => true) k right) (hx : a.expr? e = some (.binary op left right)) :
    a.Nested (fun _ => true) (k + 1) e := by
  rcases h with h | ⟨⟨op', l, r, hl⟩, h⟩
  · refine .node hx fun part hp => ?_
    simp only [Expr.parts, List.mem_cons, List.not_mem_nil, or_false] at hp
    rcases hp with rfl | rfl
    · exact h
    · exact hr
  · exact .chain hx rfl hl h hr

theorem ChainLeft.extends {a a' : Arena} (hext : a.Extends a') {left : ExprRef} (h : ChainLeft a k left) :
    ChainLeft a' k left := by
  rcases h with h | ⟨⟨op, l, r, hl⟩, h⟩
  · exact .inl (h.extends hext)
  · exact .inr ⟨⟨op, l, r, hext.expr? hl⟩, h.extends hext⟩

theorem built_chainFrom {op? : TokenKind → Option Operator} {operand : ParseM ExprRef} (ho : ReadsExpr k d operand) :
    ∀ (n : Nat) {left e : ExprRef} {s₀ s s' : Parser}, s.depth = d → Built (k + 1) s₀ [left] s →
      ChainLeft s.arena k left → chainFrom op? operand n left s = .ok e s' → Built (k + 1) s₀ [e] s'
  | 0, left, e, s₀, s, s', _, hb, _, h => by
    obtain ⟨rfl, rfl⟩ := pure_ok h
    exact hb
  | n + 1, left, e, s₀, s, s', hd, hb, hl, h => by
    obtain ⟨t, s₁, h₁, h⟩ := bind_ok h
    have hs₁ := Quiet.peekToken _ _ _ h₁
    cases hop : op? t.kind with
    | none =>
      rw [hop] at h
      obtain ⟨rfl, rfl⟩ := pure_ok h
      exact hb.behind hs₁
    | some op =>
      rw [hop] at h
      obtain ⟨u, s₂, h₂, h⟩ := bind_ok h
      obtain ⟨right, s₃, h₃, h⟩ := bind_ok h
      obtain ⟨whole, s₄, h₄, h⟩ := bind_ok h
      have hs₂ := hs₁.trans (Quiet.skip _ _ _ h₂)
      have hright := ho s₂ right s₃ (same_postordered hb.postordered hs₂) (hs₂.depth.trans hd) h₃
      have hboth := (hb.behind hs₂).append (hright.mono (Nat.le_succ k))
      have hl₃ : ChainLeft s₃.arena k left := by
        rw [← hs₂.arena] at hl
        exact hl.extends hright.grown
      have hrn := hright.fill.2.2 right List.mem_cons_self
      have hwhole : Built (k + 1) s₀ [whole] s₄ :=
        hboth.addExpr_of h₄ fun hext hx => (hl₃.extends hext).binary (hrn.extends hext) hx
      have hx₄ : s₄.arena.expr? whole = some (.binary op left right) := by
        cases h₄
        exact Arena.expr?_addExpr_self _ _ _
      refine built_chainFrom ho n ?_ hwhole (.inr ⟨⟨op, left, right, hx₄⟩, ?_⟩) h
      · cases h₄
        exact hright.depth.trans (hs₂.depth.trans hd)
      · exact hwhole.fill.2.2 whole List.mem_cons_self

theorem ReadsExpr.chain {operand : ParseM ExprRef} (ho : ReadsExpr k d operand) (bound : Nat)
    (op? : TokenKind → Option Operator) : ReadsExpr (k + 1) d (chain bound op? operand) := by
  intro s e s' hs hd h
  obtain ⟨left, s₁, h₁, h⟩ := bind_ok h
  have hl := ho s left s₁ hs hd h₁
  exact built_chainFrom ho bound (hl.depth.trans hd) (hl.mono (Nat.le_succ k))
    (.inl (hl.fill.2.2 left List.mem_cons_self)) h

theorem ReadsExpr.logical {unary : ParseM ExprRef} (hu : ReadsExpr k d unary) (bound : Nat) :
    ReadsExpr (k + 4) d (logical bound unary) :=
  (((hu.chain bound productOp?).chain bound sumOp?).chain bound relationOp?).chain bound logicalOp?

/-! ## Primary expressions -/

theorem built_items {item : ParseM ExprRef} (hi : ReadsExpr k d item) : ∀ (n : Nat) {es : List ExprRef}
    {s s' : Parser}, s.arena.Postordered → s.depth = d → items item n s = .ok es s' → Built k s es s'
  | 0, es, s, s', hs, _, h => by
    obtain ⟨rfl, rfl⟩ := pure_ok h
    exact Built.of_same hs (Same.refl s)
  | n + 1, es, s, s', hs, hd, h => by
    obtain ⟨e, s₁, h₁, h⟩ := bind_ok h
    obtain ⟨t, s₂, h₂, h⟩ := bind_ok h
    have he := (hi s e s₁ hs hd h₁).behind (Quiet.peek _ _ _ h₂)
    split at h
    · obtain ⟨u, s₃, h₃, h⟩ := bind_ok h
      obtain ⟨rest, s₄, h₄, h⟩ := bind_ok h
      obtain ⟨rfl, rfl⟩ := pure_ok h
      have he' := he.behind (Quiet.skip _ _ _ h₃)
      exact he'.append (built_items hi n he'.postordered (he'.depth.trans hd) h₄)
    · obtain ⟨rfl, rfl⟩ := pure_ok h
      exact he

theorem built_commaSeparated {item : ParseM ExprRef} (hi : ReadsExpr k d item) {bound : Nat} {es : List ExprRef}
    (hs : s.arena.Postordered) (hd : s.depth = d) (h : commaSeparated bound item s = .ok es s') : Built k s es s' := by
  obtain ⟨t, s₁, h₁, h⟩ := bind_ok h
  have hs₁ := Quiet.peek _ _ _ h₁
  split at h
  · obtain ⟨rfl, rfl⟩ := pure_ok h
    exact Built.of_same hs hs₁
  · exact Built.ahead hs hs₁ (built_items hi bound (same_postordered hs hs₁) (hs₁.depth.trans hd) h)

theorem built_arguments {expr : ParseM ExprRef} (he : ReadsExpr k d expr) {bound : Nat} {es : List ExprRef}
    (hs : s.arena.Postordered) (hd : s.depth = d) (h : arguments bound expr s = .ok es s') : Built k s es s' := by
  obtain ⟨u, s₁, h₁, h⟩ := bind_ok h
  obtain ⟨args, s₂, h₂, h⟩ := bind_ok h
  obtain ⟨u', s₃, h₃, h⟩ := bind_ok h
  obtain ⟨rfl, rfl⟩ := pure_ok h
  have hs₁ := Quiet.mark _ _ _ _ h₁
  have hargs := built_commaSeparated he (same_postordered hs hs₁) (hs₁.depth.trans hd) h₂
  exact (Built.ahead hs hs₁ hargs).behind (Quiet.mark _ _ _ _ h₃)

theorem ReadsExpr.enclosed {left right : Mark} {expr : ParseM ExprRef} (he : ReadsExpr k d expr) :
    ReadsExpr k d (do mark left; let e ← expr; mark right; return e) := by
  intro s e s' hs hd h
  obtain ⟨u, s₁, h₁, h⟩ := bind_ok h
  obtain ⟨e', s₂, h₂, h⟩ := bind_ok h
  obtain ⟨u', s₃, h₃, h⟩ := bind_ok h
  obtain ⟨rfl, rfl⟩ := pure_ok h
  have hs₁ := Quiet.mark _ _ _ _ h₁
  exact (Built.ahead hs hs₁ (he s₁ _ s₂ (same_postordered hs hs₁) (hs₁.depth.trans hd) h₂)).behind
    (Quiet.mark _ _ _ _ h₃)

theorem ReadsExpr.parenthesized {expr : ParseM ExprRef} (he : ReadsExpr k d expr) :
    ReadsExpr k d (parenthesized expr) := he.enclosed

theorem ReadsExpr.braced {expr : ParseM ExprRef} (he : ReadsExpr k d expr) : ReadsExpr k d (braced expr) :=
  he.enclosed

/-- An expression without parts, behind steps that leave the tree alone. -/
theorem built_leaf {x : Expr} {place : Location} {e : ExprRef} (hx : x.parts = []) (hs : s.arena.Postordered)
    (hsame : Same s s₁) (h : addExpr x place s₁ = .ok e s') : Built (k + 1) s [e] s' := by
  refine Built.addExpr (x := x) ?_ h
  rw [hx]
  exact Built.of_same hs hsame

theorem ReadsExpr.named {expr : ParseM ExprRef} (he : ReadsExpr k d expr) (bound : Nat) :
    ReadsExpr (k + 1) d (named bound expr) := by
  intro s e s' hs hd h
  obtain ⟨⟨name, place⟩, s₁, h₁, h⟩ := bind_ok h
  obtain ⟨t, s₂, h₂, h⟩ := bind_ok h
  have hs₂ := (Quiet.identifier _ _ _ h₁).trans (Quiet.peek _ _ _ h₂)
  have hpost := same_postordered hs hs₂
  split at h
  · obtain ⟨args, s₃, h₃, h⟩ := bind_ok h
    have hargs := built_arguments he hpost (hs₂.depth.trans hd) h₃
    exact (Built.ahead hs hs₂ hargs).addExpr h
  · obtain ⟨u, s₃, h₃, h⟩ := bind_ok h
    obtain ⟨⟨method, place'⟩, s₄, h₄, h⟩ := bind_ok h
    obtain ⟨args, s₅, h₅, h⟩ := bind_ok h
    have hs₄ := (hs₂.trans (Quiet.skip _ _ _ h₃)).trans (Quiet.identifier _ _ _ h₄)
    have hargs := built_arguments he (same_postordered hs hs₄) (hs₄.depth.trans hd) h₅
    exact (Built.ahead hs hs₄ hargs).addExpr h
  · exact built_leaf rfl hs hs₂ h

theorem built_ifElse {expr : ParseM ExprRef} (he : ReadsExpr k d expr) {place : Location} {e : ExprRef}
    (hs : s.arena.Postordered) (hd : s.depth = d)
    (h : (do
      let condition ← expr
      keyword .thenKw
      let onTrue ← Grammar.braced expr
      keyword .elseKw
      let onFalse ← Grammar.braced expr
      addExpr (.ifElse condition onTrue onFalse) place : ParseM ExprRef) s = .ok e s') : Built (k + 1) s [e] s' := by
  obtain ⟨c, s₁, h₁, h⟩ := bind_ok h
  obtain ⟨u, s₂, h₂, h⟩ := bind_ok h
  obtain ⟨t, s₃, h₃, h⟩ := bind_ok h
  obtain ⟨u', s₄, h₄, h⟩ := bind_ok h
  obtain ⟨f, s₅, h₅, h⟩ := bind_ok h
  have hc := (he s c s₁ hs hd h₁).behind (Quiet.keyword _ _ _ _ h₂)
  have ht := hc.append ((he.braced s₂ t s₃ hc.postordered (hc.depth.trans hd) h₃).behind (Quiet.keyword _ _ _ _ h₄))
  have hf := ht.append (he.braced s₄ f s₅ ht.postordered (ht.depth.trans hd) h₅)
  exact hf.addExpr (x := .ifElse c t f) h

theorem ReadsExpr.primary {expr : ParseM ExprRef} (he : ReadsExpr k d expr) (bound : Nat) :
    ReadsExpr (k + 1) d (primary bound expr) := by
  intro s e s' hs hd h
  obtain ⟨t, s₁, h₁, h⟩ := bind_ok h
  have hs₁ := Quiet.peekToken _ _ _ h₁
  have hpost := same_postordered hs hs₁
  have hd₁ := hs₁.depth.trans hd
  generalize t.kind = kind at h
  cases kind with
  | number value =>
    obtain ⟨u, s₂, h₂, h⟩ := bind_ok h
    exact built_leaf rfl hs (hs₁.trans (Quiet.skip _ _ _ h₂)) h
  | identifier name =>
    exact Built.ahead hs hs₁ (he.named bound s₁ e s' hpost hd₁ h)
  | endOfInput => cases h
  | mark m =>
    cases m with
    | minus =>
      obtain ⟨u, s₂, h₂, h⟩ := bind_ok h
      obtain ⟨t', s₃, h₃, h⟩ := bind_ok h
      have hs₃ := (hs₁.trans (Quiet.skip _ _ _ h₂)).trans (Quiet.peek _ _ _ h₃)
      split at h
      · obtain ⟨u', s₄, h₄, h⟩ := bind_ok h
        exact built_leaf rfl hs (hs₃.trans (Quiet.skip _ _ _ h₄)) h
      · exact absurd h refuse_ne_ok
    | parenOpen =>
      exact (Built.ahead hs hs₁ (he.parenthesized s₁ e s' hpost hd₁ h)).mono (Nat.le_succ k)
    | _ => cases h
  | keyword k =>
    cases k with
    | trueKw =>
      obtain ⟨u, s₂, h₂, h⟩ := bind_ok h
      exact built_leaf rfl hs (hs₁.trans (Quiet.skip _ _ _ h₂)) h
    | falseKw =>
      obtain ⟨u, s₂, h₂, h⟩ := bind_ok h
      exact built_leaf rfl hs (hs₁.trans (Quiet.skip _ _ _ h₂)) h
    | nullKw =>
      obtain ⟨u, s₂, h₂, h⟩ := bind_ok h
      exact built_leaf rfl hs (hs₁.trans (Quiet.skip _ _ _ h₂)) h
    | ifKw =>
      obtain ⟨u, s₂, h₂, h⟩ := bind_ok h
      have hs₂ := hs₁.trans (Quiet.skip _ _ _ h₂)
      exact Built.ahead hs hs₂ (built_ifElse he (same_postordered hs hs₂) (hs₂.depth.trans hd) h)
    | printKw =>
      obtain ⟨u, s₂, h₂, h⟩ := bind_ok h
      obtain ⟨operand, s₃, h₃, h⟩ := bind_ok h
      have hs₂ := hs₁.trans (Quiet.skip _ _ _ h₂)
      have ho := he.parenthesized s₂ operand s₃ (same_postordered hs hs₂) (hs₂.depth.trans hd) h₃
      exact (Built.ahead hs hs₂ ho).addExpr (x := .print operand) h
    | newKw =>
      obtain ⟨u, s₂, h₂, h⟩ := bind_ok h
      obtain ⟨⟨name, place⟩, s₃, h₃, h⟩ := bind_ok h
      obtain ⟨args, s₄, h₄, h⟩ := bind_ok h
      have hs₃ := (hs₁.trans (Quiet.skip _ _ _ h₂)).trans (Quiet.identifier _ _ _ h₃)
      have hargs := built_arguments he (same_postordered hs hs₃) (hs₃.depth.trans hd) h₄
      exact (Built.ahead hs hs₃ hargs).addExpr (x := .new name args) h
    | _ => cases h

/-! ## Expressions -/

/-- One level of the parser is at most five levels of nesting. -/
theorem readsExpr_unary (bound : Nat) : ∀ (n : Nat) {d : Nat}, d ≤ maxDepth →
    ReadsExpr (5 * (maxDepth - d) + 1) d (unary bound n)
  | 0, _, _ => fun s e s' _ _ h => absurd h tooDeep_ne_ok
  | n + 1, d, hd => by
    intro s e s' hs hsd h
    obtain ⟨t, s₁, h₁, h⟩ := bind_ok h
    have hs₁ := Quiet.peekToken _ _ _ h₁
    split at h
    · obtain ⟨u, s₂, h₂, h⟩ := bind_ok h
      obtain ⟨operand, s₃, h₃, h⟩ := bind_ok h
      have hs₂ := hs₁.trans (Quiet.skip _ _ _ h₂)
      have hin : ReadsExpr (5 * (maxDepth - d)) d (nested (unary bound n)) :=
        .nested fun hlt => (readsExpr_unary bound n hlt).mono (by omega)
      have ho := hin s₂ operand s₃ (same_postordered hs hs₂) (hs₂.depth.trans hsd) h₃
      exact (Built.ahead hs hs₂ ho).addExpr (x := .not operand) h
    · have hin : ReadsExpr (5 * (maxDepth - d)) d (nested (logical bound (unary bound n))) :=
        .nested fun hlt => ((readsExpr_unary bound n hlt).logical bound).mono (by omega)
      exact Built.ahead hs hs₁ (hin.primary bound s₁ e s' (same_postordered hs hs₁) (hs₁.depth.trans hsd) h)

/-- How deep an expression of a program can be nested. -/
def nestingBound : Nat := 5 * maxDepth

theorem readsExpr_expression (bound d : Nat) : ReadsExpr nestingBound d (expression bound) :=
  .nested fun hlt => ((readsExpr_unary bound maxDepth hlt).logical bound).mono (by unfold nestingBound; omega)

end Grammar

end Fool
