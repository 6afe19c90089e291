import Fool.Proofs.Parse.Grammar
import Fool.Proofs.Parse.Stream

/-!
# What is read is in the grammar

Whatever a step of reading takes when it succeeds is a list of tokens of its nonterminal (`Takes`). At depth `d` of the
parser `maxDepth - d` levels may still be opened, so this is the number at the nonterminal. The bound on the length of a
list of items never ends it early, since it is no less than the answers in front of the parser.
-/

namespace Fool

namespace Grammar

open Fool.Parser Fool.Syntax

variable {α τ : Type} {bound d : Nat} {s s' : Parser} {rs : List (Except ParseError Token)}

/-- At depth `d` the parser has these answers in front of it, at most `bound`. -/
structure Before (bound d : Nat) (s : Parser) (rs : List (Except ParseError Token)) : Prop where
  ahead : Ahead s rs
  length_le : rs.length ≤ bound
  depth : s.depth = d

theorem Before.after {rs' : List (Except ParseError Token)} {ts : List Token} (h : Before bound d s rs)
    (htook : Took s rs ts s' rs') : Before bound d s' rs' :=
  ⟨htook.ahead, Nat.le_trans htook.length_le h.length_le, htook.depth.trans h.depth⟩

/-- If the step succeeds, it has taken a list of tokens of the language. -/
def Takes (bound d : Nat) (lang : Lang τ) (p : ParseM α) : Prop :=
  ∀ ⦃s s' : Parser⦄ ⦃rs : List (Except ParseError Token)⦄ ⦃a : α⦄, Before bound d s rs → p s = .ok a s' →
    ∃ ts x rs', Took s rs ts s' rs' ∧ lang ts x

/-- What is nested has one level less below it. -/
theorem Takes.nested {lang : Nat → Lang τ} {p : ParseM α}
    (h : d < maxDepth → Takes bound (d + 1) (lang (maxDepth - (d + 1))) p) :
    Takes bound d (Below lang (maxDepth - d)) (nested p) := by
  intro s s' rs a hb hp
  obtain ⟨hlt, s₁, h₁, rfl⟩ := nested_ok hp
  rw [hb.depth] at hlt
  have hdeeper : Before bound (d + 1) { s with depth := s.depth + 1 } rs :=
    ⟨hb.ahead.congr rfl, hb.length_le, congrArg (· + 1) hb.depth⟩
  obtain ⟨ts, x, rs', htook, hx⟩ := h hlt hdeeper h₁
  refine ⟨ts, x, rs', ⟨htook.answers, htook.ahead.congr rfl, by simp [htook.depth]⟩, ?_⟩
  rw [show maxDepth - d = maxDepth - (d + 1) + 1 by omega]
  exact hx

/-! ## Lists and types -/

theorem takes_items {item : Lang τ} {p : ParseM α} (hi : Takes bound d item p) : ∀ (n : Nat) {s s' : Parser}
    {rs : List (Except ParseError Token)} {as : List α}, Before bound d s rs → rs.length ≤ n →
    items p n s = .ok as s' → ∃ ts xs rs', Took s rs ts s' rs' ∧ Items item ts xs
  | 0, _, _, _, _, hb, hn, _ => absurd (List.eq_nil_of_length_eq_zero (Nat.le_zero.1 hn)) hb.ahead.ne_nil
  | n + 1, s, s', rs, as, hb, hn, h => by
    obtain ⟨a, s₁, h₁, h⟩ := bind_ok h
    obtain ⟨k, s₂, h₂, h⟩ := bind_ok h
    obtain ⟨ts, x, rs₁, took₁, hx⟩ := hi hb h₁
    obtain ⟨took₂, t, rs₂, rfl, rfl⟩ := took₁.peek h₂
    split at h
    · rename_i hk
      obtain ⟨u, s₃, h₃, h⟩ := bind_ok h
      obtain ⟨as', s₄, h₄, h⟩ := bind_ok h
      obtain ⟨-, rfl⟩ := pure_ok h
      have took₃ := took_skip took₂.ahead (by simp [hk]) h₃
      have hlen := took₁.length_le
      obtain ⟨us, xs, rs₄, took₄, hxs⟩ := takes_items hi n ((hb.after took₂).after took₃)
        (Nat.le_of_succ_le_succ (Nat.le_trans hlen hn)) h₄
      exact ⟨_, _, _, took₂.trans (took₃.trans took₄), .cons hx hk hxs⟩
    · obtain ⟨-, rfl⟩ := pure_ok h
      exact ⟨_, _, _, took₂, .one hx⟩

theorem Takes.commaSeparated {item : Lang τ} {p : ParseM α} (hi : Takes bound d item p) :
    Takes bound d (Listed item) (commaSeparated bound p) := by
  intro s s' rs as hb h
  obtain ⟨k, s₁, h₁, h⟩ := bind_ok h
  obtain ⟨took₁, t, rs₁, rfl, rfl⟩ := (Took.refl hb.ahead).peek h₁
  split at h
  · obtain ⟨-, rfl⟩ := pure_ok h
    exact ⟨_, _, _, took₁, .none⟩
  · have hb₁ := hb.after took₁
    obtain ⟨ts, xs, rs₂, took₂, hxs⟩ := takes_items hi bound hb₁ hb₁.length_le h
    exact ⟨_, _, _, took₁.trans took₂, .some hxs⟩

theorem takes_simpleType : Takes bound d SimpleType simpleType := by
  intro s s' rs ty hb h
  obtain ⟨k, s₁, h₁, h⟩ := bind_ok h
  obtain ⟨took₁, t, rs₁, rfl, hk⟩ := (Took.refl hb.ahead).peek h₁
  split at h
  · obtain ⟨u, s₂, h₂, h⟩ := bind_ok h
    obtain ⟨-, rfl⟩ := pure_ok h
    exact ⟨_, _, _, took₁.trans (took_skip took₁.ahead (by simp [hk]) h₂), .int hk⟩
  · obtain ⟨u, s₂, h₂, h⟩ := bind_ok h
    obtain ⟨-, rfl⟩ := pure_ok h
    exact ⟨_, _, _, took₁.trans (took_skip took₁.ahead (by simp [hk]) h₂), .bool hk⟩
  · obtain ⟨name, s₂, h₂, h⟩ := bind_ok h
    obtain ⟨-, rfl⟩ := pure_ok h
    obtain ⟨t', name', rs₂, hk', took₂⟩ := took_identifier took₁.ahead h₂
    exact ⟨_, _, _, took₁.trans took₂, .object hk'⟩
  · exact absurd h refuse_ne_ok

theorem takes_anyType : ∀ (n : Nat) {d : Nat}, Takes bound d (AnyType (maxDepth - d)) (anyType bound n)
  | 0, _ => fun _ _ _ _ _ h => absurd h tooDeep_ne_ok
  | n + 1, d => by
    intro s s' rs ty hb h
    rw [anyType_eq]
    obtain ⟨k, s₁, h₁, h⟩ := bind_ok h
    obtain ⟨took₁, t, rs₁, rfl, rfl⟩ := (Took.refl hb.ahead).peek h₁
    have hb₁ := hb.after took₁
    split at h
    · rename_i hk
      obtain ⟨u, s₂, h₂, h⟩ := bind_ok h
      obtain ⟨params, s₃, h₃, h⟩ := bind_ok h
      obtain ⟨u', s₄, h₄, h⟩ := bind_ok h
      obtain ⟨u'', s₅, h₅, h⟩ := bind_ok h
      obtain ⟨ret, s₆, h₆, h⟩ := bind_ok h
      obtain ⟨-, rfl⟩ := pure_ok h
      have took₂ := took_skip took₁.ahead (by simp [hk]) h₂
      have hb₂ := hb₁.after took₂
      obtain ⟨ts, xs, rs₃, took₃, hxs⟩ := (Takes.nested fun _ => takes_anyType n).commaSeparated hb₂ h₃
      obtain ⟨right, rs₄, hright, took₄⟩ := took_mark took₃.ahead h₄
      obtain ⟨arrow, rs₅, harrow, took₅⟩ := took_mark took₄.ahead h₅
      obtain ⟨us, x, rs₆, took₆, hx⟩ := takes_simpleType (((hb₂.after took₃).after took₄).after took₅) h₆
      exact ⟨_, _, _, took₁.trans (took₂.trans (took₃.trans (took₄.trans (took₅.trans took₆)))),
        .arrow hk hxs hright harrow hx⟩
    · obtain ⟨ts, x, rs₂, took₂, hx⟩ := takes_simpleType hb₁ h
      exact ⟨_, _, _, took₁.trans took₂, .simple hx⟩

theorem Takes.typedName {type : Lang TypeTree} {p : ParseM Ty} (ht : Takes bound d type p) :
    Takes bound d (MemberOf type) (typedName p) := by
  intro s s' rs m hb h
  obtain ⟨⟨name, place⟩, s₁, h₁, h⟩ := bind_ok h
  obtain ⟨u, s₂, h₂, h⟩ := bind_ok h
  obtain ⟨ty, s₃, h₃, h⟩ := bind_ok h
  obtain ⟨-, rfl⟩ := pure_ok h
  obtain ⟨id, name', rs₁, hid, took₁⟩ := took_identifier hb.ahead h₁
  obtain ⟨colon, rs₂, hcolon, took₂⟩ := took_mark took₁.ahead h₂
  obtain ⟨ts, x, rs₃, took₃, hx⟩ := ht ((hb.after took₁).after took₂) h₃
  exact ⟨_, _, _, took₁.trans (took₂.trans took₃), .mk hid hcolon hx⟩

/-! ## Operators -/

/-- The operators that are read at a level. -/
def levelOp? : Level → TokenKind → Option Operator
  | .logical => logicalOp?
  | .relation => relationOp?
  | .sum => sumOp?
  | .product => productOp?

/-- At a level just the signs of its operators are read as operators. -/
theorem levelOp?_eq_some {l : Level} {k : TokenKind} {op : Operator} :
    levelOp? l k = some op ↔ k = .mark (sign op) ∧ level op = l := by
  constructor
  · intro h
    cases l <;> simp only [levelOp?, logicalOp?, relationOp?, sumOp?, productOp?] at h <;>
      split at h <;> cases h <;> exact ⟨rfl, rfl⟩
  · rintro ⟨rfl, rfl⟩
    cases op <;> rfl

theorem takes_chainFrom {l : Level} {operand : Lang Tree} {p : ParseM ExprRef} (ho : Takes bound d operand p) :
    ∀ (n : Nat) {left e : ExprRef} {s₀ s s' : Parser} {rs₀ rs : List (Except ParseError Token)} {ts : List Token}
      {x : Tree}, Before bound d s₀ rs₀ → Took s₀ rs₀ ts s rs → Chain l operand ts x →
      chainFrom (levelOp? l) p n left s = .ok e s' → ∃ ts x rs', Took s₀ rs₀ ts s' rs' ∧ Chain l operand ts x
  | 0, _, _, _, _, _, _, _, _, _, _, htook, hx, h => by
    obtain ⟨-, rfl⟩ := pure_ok h
    exact ⟨_, _, _, htook, hx⟩
  | n + 1, left, e, s₀, s, s', rs₀, rs, ts, x, hb, htook, hx, h => by
    obtain ⟨t, s₁, h₁, h⟩ := bind_ok h
    obtain ⟨took₁, rs₁, rfl⟩ := htook.peekToken h₁
    cases hop : levelOp? l t.kind with
    | none =>
      rw [hop] at h
      obtain ⟨-, rfl⟩ := pure_ok h
      exact ⟨_, _, _, took₁, hx⟩
    | some op =>
      rw [hop] at h
      obtain ⟨u, s₂, h₂, h⟩ := bind_ok h
      obtain ⟨right, s₃, h₃, h⟩ := bind_ok h
      obtain ⟨whole, s₄, h₄, h⟩ := bind_ok h
      obtain ⟨hk, hl⟩ := levelOp?_eq_some.1 hop
      have took₂ := took_skip took₁.ahead (by simp [hk]) h₂
      obtain ⟨us, y, rs₃, took₃, hy⟩ := ho ((hb.after took₁).after took₂) h₃
      exact takes_chainFrom ho n hb ((took₁.trans (took₂.trans took₃)).addExpr h₄) (.binary hx hl hk hy) h

theorem Takes.chain {operand : Lang Tree} {p : ParseM ExprRef} (l : Level) (ho : Takes bound d operand p) :
    Takes bound d (Chain l operand) (chain bound (levelOp? l) p) := by
  intro s s' rs e hb h
  obtain ⟨first, s₁, h₁, h⟩ := bind_ok h
  obtain ⟨ts, x, rs₁, took₁, hx⟩ := ho hb h₁
  exact takes_chainFrom ho bound hb took₁ (.operand hx) h

theorem Takes.logical {operand : Lang Tree} {p : ParseM ExprRef} (ho : Takes bound d operand p) :
    Takes bound d (Operators operand) (logical bound p) :=
  Takes.chain .logical (Takes.chain .relation (Takes.chain .sum (Takes.chain .product ho)))

/-! ## Expressions -/

section Primary

variable {lang : Lang Tree} {expr : ParseM ExprRef}

theorem Takes.arguments (he : Takes bound d lang expr) : Takes bound d (Arguments lang) (arguments bound expr) := by
  intro s s' rs args hb h
  obtain ⟨u, s₁, h₁, h⟩ := bind_ok h
  obtain ⟨args', s₂, h₂, h⟩ := bind_ok h
  obtain ⟨u', s₃, h₃, h⟩ := bind_ok h
  obtain ⟨-, rfl⟩ := pure_ok h
  obtain ⟨left, rs₁, hleft, took₁⟩ := took_mark hb.ahead h₁
  obtain ⟨ts, xs, rs₂, took₂, hxs⟩ := he.commaSeparated (hb.after took₁) h₂
  obtain ⟨right, rs₃, hright, took₃⟩ := took_mark took₂.ahead h₃
  exact ⟨_, _, _, took₁.trans (took₂.trans took₃), .mk hleft hxs hright⟩

/-- What stands between two marks. -/
theorem took_enclosed {left right : Mark} {e : ExprRef} (he : Takes bound d lang expr) (hb : Before bound d s rs)
    (h : (do mark left; let e ← expr; mark right; return e : ParseM ExprRef) s = .ok e s') :
    ∃ l ts x r rs', Took s rs (l :: (ts ++ [r])) s' rs' ∧ l.kind = .mark left ∧ lang ts x ∧ r.kind = .mark right := by
  obtain ⟨u, s₁, h₁, h⟩ := bind_ok h
  obtain ⟨e', s₂, h₂, h⟩ := bind_ok h
  obtain ⟨u', s₃, h₃, h⟩ := bind_ok h
  obtain ⟨-, rfl⟩ := pure_ok h
  obtain ⟨l, rs₁, hl, took₁⟩ := took_mark hb.ahead h₁
  obtain ⟨ts, x, rs₂, took₂, hx⟩ := he (hb.after took₁) h₂
  obtain ⟨r, rs₃, hr, took₃⟩ := took_mark took₂.ahead h₃
  exact ⟨l, ts, x, r, rs₃, took₁.trans (took₂.trans took₃), hl, hx, hr⟩

theorem Takes.named (he : Takes bound d lang expr) : Takes bound d (Primary lang) (named bound expr) := by
  intro s s' rs e hb h
  obtain ⟨⟨name, place⟩, s₁, h₁, h⟩ := bind_ok h
  obtain ⟨k, s₂, h₂, h⟩ := bind_ok h
  obtain ⟨id, name', rs₁, hid, took₁⟩ := took_identifier hb.ahead h₁
  obtain ⟨took₂, t, rs₂, rfl, hk⟩ := took₁.peek h₂
  have hb₂ := hb.after took₂
  split at h
  · obtain ⟨args, s₃, h₃, h⟩ := bind_ok h
    obtain ⟨ts, xs, rs₃, took₃, hxs⟩ := he.arguments hb₂ h₃
    exact ⟨_, _, _, (took₂.trans took₃).addExpr h, .call hid hxs⟩
  · obtain ⟨u, s₃, h₃, h⟩ := bind_ok h
    obtain ⟨⟨method, place'⟩, s₄, h₄, h⟩ := bind_ok h
    obtain ⟨args, s₅, h₅, h⟩ := bind_ok h
    have took₃ := took_skip took₂.ahead (by simp [hk]) h₃
    obtain ⟨id', method', rs₄, hid', took₄⟩ := took_identifier took₃.ahead h₄
    obtain ⟨ts, xs, rs₅, took₅, hxs⟩ := he.arguments ((hb₂.after took₃).after took₄) h₅
    exact ⟨_, _, _, (took₂.trans (took₃.trans (took₄.trans took₅))).addExpr h, .methodCall hid hk hid' hxs⟩
  · exact ⟨_, _, _, took₂.addExpr h, .name hid⟩

theorem Takes.primary (he : Takes bound d lang expr) : Takes bound d (Primary lang) (primary bound expr) := by
  intro s s' rs e hb h
  obtain ⟨t, s₁, h₁, h⟩ := bind_ok h
  obtain ⟨took₁, rs₁, rfl⟩ := (Took.refl hb.ahead).peekToken h₁
  have hb₁ := hb.after took₁
  generalize hk : t.kind = kind at h
  -- a token that an expression without parts is made of
  have taken : ∀ {u : Unit} {s₂ : Parser}, skip s₁ = .ok u s₂ → Took s (.ok t :: rs₁) [t] s₂ rs₁ ∨ kind = .endOfInput := by
    intro u s₂ h₂
    by_cases hend : kind = .endOfInput
    · exact .inr hend
    · exact .inl (took₁.trans (took_skip took₁.ahead (hk ▸ hend) h₂))
  cases kind with
  | number value =>
    obtain ⟨u, s₂, h₂, h⟩ := bind_ok h
    obtain took₂ := (taken h₂).resolve_right nofun
    exact ⟨_, _, _, took₂.addExpr h, .number hk⟩
  | identifier name =>
    obtain ⟨ts, x, rs₂, took₂, hx⟩ := he.named hb₁ h
    exact ⟨_, _, _, took₁.trans took₂, hx⟩
  | endOfInput => cases h
  | mark m =>
    cases m with
    | minus =>
      obtain ⟨u, s₂, h₂, h⟩ := bind_ok h
      obtain ⟨k', s₃, h₃, h⟩ := bind_ok h
      obtain took₂ := (taken h₂).resolve_right nofun
      obtain ⟨took₃, t', rs₃, rfl, hk'⟩ := took₂.peek h₃
      split at h
      · obtain ⟨u', s₄, h₄, h⟩ := bind_ok h
        have took₄ := took_skip took₃.ahead (by simp [hk']) h₄
        exact ⟨_, _, _, (took₃.trans took₄).addExpr h, .negative hk hk'⟩
      · exact absurd h refuse_ne_ok
    | parenOpen =>
      obtain ⟨left, ts, x, right, rs₂, took₂, hleft, hx, hright⟩ := took_enclosed he hb₁ h
      exact ⟨_, _, _, took₁.trans took₂, .parenthesized hleft hx hright⟩
    | _ => cases h
  | keyword k =>
    cases k with
    | trueKw =>
      obtain ⟨u, s₂, h₂, h⟩ := bind_ok h
      obtain took₂ := (taken h₂).resolve_right nofun
      exact ⟨_, _, _, took₂.addExpr h, .true hk⟩
    | falseKw =>
      obtain ⟨u, s₂, h₂, h⟩ := bind_ok h
      obtain took₂ := (taken h₂).resolve_right nofun
      exact ⟨_, _, _, took₂.addExpr h, .false hk⟩
    | nullKw =>
      obtain ⟨u, s₂, h₂, h⟩ := bind_ok h
      obtain took₂ := (taken h₂).resolve_right nofun
      exact ⟨_, _, _, took₂.addExpr h, .null hk⟩
    | ifKw =>
      obtain ⟨u, s₂, h₂, h⟩ := bind_ok h
      obtain ⟨c, s₃, h₃, h⟩ := bind_ok h
      obtain ⟨u', s₄, h₄, h⟩ := bind_ok h
      obtain ⟨onTrue, s₅, h₅, h⟩ := bind_ok h
      obtain ⟨u'', s₆, h₆, h⟩ := bind_ok h
      obtain ⟨onFalse, s₇, h₇, h⟩ := bind_ok h
      obtain took₂ := (taken h₂).resolve_right nofun
      have hb₂ := hb.after took₂
      obtain ⟨cs, xc, rs₃, took₃, hc⟩ := he hb₂ h₃
      obtain ⟨kthen, rs₄, hthen, took₄⟩ := took_keyword took₃.ahead h₄
      have hb₄ := (hb₂.after took₃).after took₄
      obtain ⟨left, ts, xt, right, rs₅, took₅, hleft, ht, hright⟩ := took_enclosed he hb₄ h₅
      obtain ⟨kelse, rs₆, helse, took₆⟩ := took_keyword took₅.ahead h₆
      have hb₆ := (hb₄.after took₅).after took₆
      obtain ⟨left', fs, xf, right', rs₇, took₇, hleft', hf, hright'⟩ := took_enclosed he hb₆ h₇
      have took_all := took₂.trans (took₃.trans (took₄.trans (took₅.trans (took₆.trans took₇))))
      simp only [List.append_assoc, List.cons_append, List.nil_append] at took_all
      exact ⟨_, _, _, took_all.addExpr h, .ifElse hk hc hthen hleft ht hright helse hleft' hf hright'⟩
    | printKw =>
      obtain ⟨u, s₂, h₂, h⟩ := bind_ok h
      obtain ⟨operand, s₃, h₃, h⟩ := bind_ok h
      obtain took₂ := (taken h₂).resolve_right nofun
      obtain ⟨left, ts, x, right, rs₃, took₃, hleft, hx, hright⟩ := took_enclosed he (hb.after took₂) h₃
      exact ⟨_, _, _, (took₂.trans took₃).addExpr h, .print hk hleft hx hright⟩
    | newKw =>
      obtain ⟨u, s₂, h₂, h⟩ := bind_ok h
      obtain ⟨⟨name, place⟩, s₃, h₃, h⟩ := bind_ok h
      obtain ⟨args, s₄, h₄, h⟩ := bind_ok h
      obtain took₂ := (taken h₂).resolve_right nofun
      obtain ⟨id, name', rs₃, hid, took₃⟩ := took_identifier took₂.ahead h₃
      obtain ⟨ts, xs, rs₄, took₄, hxs⟩ := he.arguments ((hb.after took₂).after took₃) h₄
      exact ⟨_, _, _, (took₂.trans (took₃.trans took₄)).addExpr h, .new hk hid hxs⟩
    | _ => cases h

end Primary

theorem takes_unary : ∀ (n : Nat) {d : Nat}, Takes bound d (Unary (maxDepth - d)) (unary bound n)
  | 0, _ => fun _ _ _ _ _ h => absurd h tooDeep_ne_ok
  | n + 1, d => by
    intro s s' rs e hb h
    rw [unary_eq]
    obtain ⟨t, s₁, h₁, h⟩ := bind_ok h
    obtain ⟨took₁, rs₁, rfl⟩ := (Took.refl hb.ahead).peekToken h₁
    split at h
    · rename_i hk
      obtain ⟨u, s₂, h₂, h⟩ := bind_ok h
      obtain ⟨operand, s₃, h₃, h⟩ := bind_ok h
      have took₂ := took₁.trans (took_skip took₁.ahead (by simp [hk]) h₂)
      obtain ⟨ts, x, rs₃, took₃, hx⟩ := (Takes.nested fun _ => takes_unary n) (hb.after took₂) h₃
      exact ⟨_, _, _, (took₂.trans took₃).addExpr h, .not hk hx⟩
    · have he : Takes bound d (Expression (maxDepth - d)) (nested (logical bound (unary bound n))) :=
        Takes.nested fun _ => (takes_unary n).logical
      obtain ⟨ts, x, rs₂, took₂, hx⟩ := he.primary (hb.after took₁) h
      exact ⟨_, _, _, took₁.trans took₂, .primary hx⟩

theorem takes_expression : Takes bound d (Expression (maxDepth - d)) (expression bound) :=
  Takes.nested fun _ => (takes_unary maxDepth).logical

/-! ## Declarations -/

theorem took_atDeclaration {b : Bool} (hb : Before bound d s rs) (h : atDeclaration s = .ok b s') :
    Took s rs [] s' rs ∧ ∃ t rs', rs = .ok t :: rs' ∧ (b = true ↔ BeginsDecl t.kind) := by
  obtain ⟨k, s₁, h₁, h⟩ := bind_ok h
  obtain ⟨took₁, t, rs₁, rfl, hk⟩ := (Took.refl hb.ahead).peek h₁
  refine ⟨?_, t, rs₁, rfl, ?_⟩
  · split at h <;>
      · obtain ⟨-, rfl⟩ := pure_ok h
        exact took₁
  · rw [hk]
    unfold BeginsDecl
    split at h <;>
      · obtain ⟨rfl, -⟩ := pure_ok h
        simp_all

theorem takes_declarationsFrom {lang : Lang DeclTree} {p : ParseM DeclRef} (hd : Takes bound d lang p) :
    ∀ n : Nat, Takes bound d (Many lang) (declarationsFrom p n)
  | 0 => by
    intro s s' rs ds hb h
    obtain ⟨-, rfl⟩ := pure_ok h
    exact ⟨[], [], rs, Took.refl hb.ahead, .nil⟩
  | n + 1 => by
    intro s s' rs ds hb h
    obtain ⟨b, s₁, h₁, h⟩ := bind_ok h
    obtain ⟨took₁, -⟩ := took_atDeclaration hb h₁
    split at h
    · obtain ⟨x, s₂, h₂, h⟩ := bind_ok h
      obtain ⟨xs, s₃, h₃, h⟩ := bind_ok h
      obtain ⟨-, rfl⟩ := pure_ok h
      obtain ⟨ts, y, rs₂, took₂, hy⟩ := hd (hb.after took₁) h₂
      obtain ⟨us, ys, rs₃, took₃, hys⟩ := takes_declarationsFrom hd n ((hb.after took₁).after took₂) h₃
      exact ⟨ts ++ us, _, _, took₁.trans (took₂.trans took₃), .cons hy hys⟩
    · obtain ⟨-, rfl⟩ := pure_ok h
      exact ⟨_, _, _, took₁, .nil⟩

/-- Where a declaration begins, one at least is read. -/
theorem took_declarations {lang : Lang DeclTree} {p : ParseM DeclRef} (hd : Takes bound d lang p) {ds : List DeclRef}
    (hb : Before bound d s rs) (h : declarations bound p s = .ok ds s') :
    ∃ ts x us xs rs', Took s rs (ts ++ us) s' rs' ∧ lang ts x ∧ Many lang us xs := by
  obtain ⟨b, s₁, h₁, h⟩ := bind_ok h
  obtain ⟨took₁, t, rs₁, rfl, hbegins⟩ := took_atDeclaration hb h₁
  obtain ⟨n, rfl⟩ := Nat.exists_eq_add_of_lt (Nat.lt_of_lt_of_le (Nat.succ_pos _) hb.length_le)
  split at h
  · rename_i htrue
    obtain ⟨b', s₂, h₂, h⟩ := bind_ok h
    obtain ⟨took₂, t', rs₂, heq, hbegins'⟩ := took_atDeclaration (hb.after took₁) h₂
    obtain ⟨ht, rfl⟩ := List.cons_eq_cons.1 heq
    cases ht
    rw [if_pos (hbegins'.2 (hbegins.1 htrue))] at h
    obtain ⟨x, s₃, h₃, h⟩ := bind_ok h
    obtain ⟨xs, s₄, h₄, h⟩ := bind_ok h
    obtain ⟨-, rfl⟩ := pure_ok h
    have hb₂ := (hb.after took₁).after took₂
    obtain ⟨ts, y, rs₃, took₃, hy⟩ := hd hb₂ h₃
    obtain ⟨us, ys, rs₄, took₄, hys⟩ := takes_declarationsFrom hd _ (hb₂.after took₃) h₄
    exact ⟨ts, y, us, ys, rs₄, took₁.trans (took₂.trans (took₃.trans took₄)), hy, hys⟩
  · exact absurd h refuse_ne_ok

theorem takes_letBlock {lang : Lang DeclTree} {p : ParseM DeclRef} (hd : Takes bound d lang p) :
    Takes bound d (LetBlock lang) (letBlock bound p) := by
  intro s s' rs ds hb h
  obtain ⟨k, s₁, h₁, h⟩ := bind_ok h
  obtain ⟨took₁, klet, rs₁, rfl, rfl⟩ := (Took.refl hb.ahead).peek h₁
  split at h
  · rename_i hk
    obtain ⟨u, s₂, h₂, h⟩ := bind_ok h
    obtain ⟨ds', s₃, h₃, h⟩ := bind_ok h
    obtain ⟨u', s₄, h₄, h⟩ := bind_ok h
    obtain ⟨-, rfl⟩ := pure_ok h
    have took₂ := took₁.trans (took_skip took₁.ahead (by simp [hk]) h₂)
    obtain ⟨ts, x, us, xs, rs₃, took₃, hx, hxs⟩ := took_declarations hd (hb.after took₂) h₃
    obtain ⟨kin, rs₄, hin, took₄⟩ := took_keyword took₃.ahead h₄
    exact ⟨_, _, _, took₂.trans (took₃.trans took₄), .some hk hx hxs hin⟩
  · obtain ⟨-, rfl⟩ := pure_ok h
    exact ⟨_, _, _, took₁, .none⟩

section Declarations

variable {lang : Nat → Lang DeclTree} {p : ParseM DeclRef}

theorem takes_variableDecl {locals : Lang (List DeclTree)} {v : Variable} (hb : Before bound d s rs)
    (h : variableDecl bound s = .ok v s') :
    ∃ ts x rs', Took s rs ts s' rs' ∧ DeclOver (maxDepth - d) locals ts x := by
  obtain ⟨place, s₁, h₁, h⟩ := bind_ok h
  obtain ⟨u, s₂, h₂, h⟩ := bind_ok h
  obtain ⟨⟨name, place'⟩, s₃, h₃, h⟩ := bind_ok h
  obtain ⟨u', s₄, h₄, h⟩ := bind_ok h
  obtain ⟨ty, s₅, h₅, h⟩ := bind_ok h
  obtain ⟨u'', s₆, h₆, h⟩ := bind_ok h
  obtain ⟨init, s₇, h₇, h⟩ := bind_ok h
  obtain ⟨u₃, s₈, h₈, h⟩ := bind_ok h
  obtain ⟨-, rfl⟩ := pure_ok h
  obtain ⟨took₁, -⟩ := (Took.refl hb.ahead).location h₁
  obtain ⟨kvar, rs₂, hvar, took₂⟩ := took_keyword took₁.ahead h₂
  obtain ⟨id, name', rs₃, hid, took₃⟩ := took_identifier took₂.ahead h₃
  obtain ⟨colon, rs₄, hcolon, took₄⟩ := took_mark took₃.ahead h₄
  have hb₄ := (((hb.after took₁).after took₂).after took₃).after took₄
  obtain ⟨ys, y, rs₅, took₅, hy⟩ := takes_anyType _ hb₄ h₅
  obtain ⟨assign, rs₆, hassign, took₆⟩ := took_mark took₅.ahead h₆
  obtain ⟨es, e, rs₇, took₇, he⟩ := takes_expression ((hb₄.after took₅).after took₆) h₇
  obtain ⟨semicolon, rs₈, hsemicolon, took₈⟩ := took_mark took₇.ahead h₈
  exact ⟨_, _, _, took₁.trans (took₂.trans (took₃.trans (took₄.trans (took₅.trans (took₆.trans (took₇.trans took₈)))))),
    .var hvar hid hcolon hy hassign he hsemicolon⟩

/-- The local declarations of a function are a level of nesting. -/
theorem takes_locals (hd : d < maxDepth → Takes bound (d + 1) (lang (maxDepth - (d + 1))) p) :
    Takes bound d (Below (fun n => LetBlock (lang n)) (maxDepth - d)) (nested (letBlock bound p)) :=
  Takes.nested fun hlt => takes_letBlock (hd hlt)

theorem takes_function (hd : d < maxDepth → Takes bound (d + 1) (lang (maxDepth - (d + 1))) p) :
    Takes bound d (FunctionDecl (maxDepth - d) (Below (fun n => LetBlock (lang n)) (maxDepth - d)))
      (function bound p) := by
  intro s s' rs f hb h
  obtain ⟨place, s₁, h₁, h⟩ := bind_ok h
  obtain ⟨u, s₂, h₂, h⟩ := bind_ok h
  obtain ⟨⟨name, place'⟩, s₃, h₃, h⟩ := bind_ok h
  obtain ⟨u', s₄, h₄, h⟩ := bind_ok h
  obtain ⟨ret, s₅, h₅, h⟩ := bind_ok h
  obtain ⟨u₂, s₆, h₆, h⟩ := bind_ok h
  obtain ⟨params, s₇, h₇, h⟩ := bind_ok h
  obtain ⟨u₃, s₈, h₈, h⟩ := bind_ok h
  obtain ⟨locals, s₉, h₉, h⟩ := bind_ok h
  obtain ⟨body, s₁₀, h₁₀, h⟩ := bind_ok h
  obtain ⟨u₄, s₁₁, h₁₁, h⟩ := bind_ok h
  obtain ⟨-, rfl⟩ := pure_ok h
  obtain ⟨took₁, -⟩ := (Took.refl hb.ahead).location h₁
  obtain ⟨kfun, rs₂, hfun, took₂⟩ := took_keyword took₁.ahead h₂
  obtain ⟨id, name', rs₃, hid, took₃⟩ := took_identifier took₂.ahead h₃
  obtain ⟨colon, rs₄, hcolon, took₄⟩ := took_mark took₃.ahead h₄
  have hb₄ := (((hb.after took₁).after took₂).after took₃).after took₄
  obtain ⟨ys, y, rs₅, took₅, hy⟩ := takes_simpleType hb₄ h₅
  obtain ⟨left, rs₆, hleft, took₆⟩ := took_mark took₅.ahead h₆
  have hb₆ := (hb₄.after took₅).after took₆
  obtain ⟨ps, xs, rs₇, took₇, hxs⟩ := (takes_anyType _).typedName.commaSeparated hb₆ h₇
  obtain ⟨right, rs₈, hright, took₈⟩ := took_mark took₇.ahead h₈
  have hb₈ := (hb₆.after took₇).after took₈
  obtain ⟨ls, ds, rs₉, took₉, hds⟩ := takes_locals hd hb₈ h₉
  obtain ⟨es, e, rs₁₀, took₁₀, he⟩ := takes_expression (hb₈.after took₉) h₁₀
  obtain ⟨semicolon, rs₁₁, hsemicolon, took₁₁⟩ := took_mark took₁₀.ahead h₁₁
  have front := took₁.trans (took₂.trans (took₃.trans took₄))
  exact ⟨_, _, _, front.trans (took₅.trans (took₆.trans (took₇.trans (took₈.trans (took₉.trans
    (took₁₀.trans took₁₁)))))), .mk hfun hid hcolon hy hleft hxs hright hds he hsemicolon⟩

theorem takes_methods {lang : Lang FunctionTree} {p : ParseM Function} (hf : Takes bound d lang p) :
    ∀ n : Nat, Takes bound d (Many lang) (methods p n)
  | 0 => by
    intro s s' rs fs hb h
    obtain ⟨-, rfl⟩ := pure_ok h
    exact ⟨[], [], rs, Took.refl hb.ahead, .nil⟩
  | n + 1 => by
    intro s s' rs fs hb h
    obtain ⟨k, s₁, h₁, h⟩ := bind_ok h
    obtain ⟨took₁, -⟩ := (Took.refl hb.ahead).peek h₁
    split at h
    · obtain ⟨x, s₂, h₂, h⟩ := bind_ok h
      obtain ⟨xs, s₃, h₃, h⟩ := bind_ok h
      obtain ⟨-, rfl⟩ := pure_ok h
      obtain ⟨ts, y, rs₂, took₂, hy⟩ := hf (hb.after took₁) h₂
      obtain ⟨us, ys, rs₃, took₃, hys⟩ := takes_methods hf n ((hb.after took₁).after took₂) h₃
      exact ⟨ts ++ us, _, _, took₁.trans (took₂.trans took₃), .cons hy hys⟩
    · obtain ⟨-, rfl⟩ := pure_ok h
      exact ⟨_, _, _, took₁, .nil⟩

theorem takes_classDecl (hd : d < maxDepth → Takes bound (d + 1) (lang (maxDepth - (d + 1))) p) {c : Class}
    (hb : Before bound d s rs) (h : classDecl bound p s = .ok c s') :
    ∃ ts x rs', Took s rs ts s' rs' ∧
      DeclOver (maxDepth - d) (Below (fun n => LetBlock (lang n)) (maxDepth - d)) ts x := by
  obtain ⟨place, s₁, h₁, h⟩ := bind_ok h
  obtain ⟨u, s₂, h₂, h⟩ := bind_ok h
  obtain ⟨⟨name, place'⟩, s₃, h₃, h⟩ := bind_ok h
  obtain ⟨u', s₄, h₄, h⟩ := bind_ok h
  obtain ⟨fields, s₅, h₅, h⟩ := bind_ok h
  obtain ⟨u₂, s₆, h₆, h⟩ := bind_ok h
  obtain ⟨u₃, s₇, h₇, h⟩ := bind_ok h
  obtain ⟨ms, s₈, h₈, h⟩ := bind_ok h
  obtain ⟨u₄, s₉, h₉, h⟩ := bind_ok h
  obtain ⟨-, rfl⟩ := pure_ok h
  obtain ⟨took₁, -⟩ := (Took.refl hb.ahead).location h₁
  obtain ⟨kclass, rs₂, hclass, took₂⟩ := took_keyword took₁.ahead h₂
  obtain ⟨id, name', rs₃, hid, took₃⟩ := took_identifier took₂.ahead h₃
  obtain ⟨left, rs₄, hleft, took₄⟩ := took_mark took₃.ahead h₄
  have hb₄ := (((hb.after took₁).after took₂).after took₃).after took₄
  obtain ⟨fs, xs, rs₅, took₅, hxs⟩ := takes_simpleType.typedName.commaSeparated hb₄ h₅
  obtain ⟨right, rs₆, hright, took₆⟩ := took_mark took₅.ahead h₆
  obtain ⟨left', rs₇, hleft', took₇⟩ := took_mark took₆.ahead h₇
  have hb₇ := ((hb₄.after took₅).after took₆).after took₇
  obtain ⟨us, ys, rs₈, took₈, hys⟩ := takes_methods (takes_function hd) bound hb₇ h₈
  obtain ⟨right', rs₉, hright', took₉⟩ := took_mark took₈.ahead h₉
  have front := took₁.trans (took₂.trans (took₃.trans took₄))
  exact ⟨_, _, _, front.trans (took₅.trans (took₆.trans (took₇.trans (took₈.trans took₉)))),
    .cls hclass hid hleft hxs hright hleft' hys hright'⟩

end Declarations

theorem takes_declaration : ∀ (n : Nat) {d : Nat}, Takes bound d (Declaration (maxDepth - d)) (declaration bound n)
  | 0, _ => fun _ _ _ _ _ h => absurd h tooDeep_ne_ok
  | n + 1, d => by
    intro s s' rs x hb h
    rw [declaration_eq]
    obtain ⟨k, s₁, h₁, h⟩ := bind_ok h
    obtain ⟨took₁, -⟩ := (Took.refl hb.ahead).peek h₁
    have hb₁ := hb.after took₁
    split at h
    · obtain ⟨v, s₂, h₂, h⟩ := bind_ok h
      obtain ⟨ts, y, rs₂, took₂, hy⟩ := takes_variableDecl hb₁ h₂
      exact ⟨_, _, _, (took₁.trans took₂).addDecl h, hy⟩
    · obtain ⟨f, s₂, h₂, h⟩ := bind_ok h
      obtain ⟨ts, y, rs₂, took₂, hy⟩ := takes_function (fun _ => takes_declaration n) hb₁ h₂
      exact ⟨_, _, _, (took₁.trans took₂).addDecl h, .function hy⟩
    · obtain ⟨c, s₂, h₂, h⟩ := bind_ok h
      obtain ⟨ts, y, rs₂, took₂, hy⟩ := takes_classDecl (fun _ => takes_declaration n) hb₁ h₂
      exact ⟨_, _, _, (took₁.trans took₂).addDecl h, hy⟩
    · exact absurd h refuse_ne_ok

end Grammar

/-- **Soundness.** What is accepted is derivable from the grammar, with no more levels of nesting than there may be: the
answers up to the end are tokens, and together a whole program. -/
theorem Parser.whole_of_program {s s' : Parser} {rs : List (Except ParseError Token)} {p : Program} (h : Ahead s rs)
    (hdepth : s.depth = 0) (hlen : rs.length ≤ s.tokens.buffer.length + s.tokens.source.rest.length + 1)
    (hp : program s = .ok p s') :
    ∃ ts x, rs = ts.map .ok ∧ Syntax.Whole maxDepth ts x := by
  obtain ⟨n, s₁, h₁, hp⟩ := bind_ok hp
  cases h₁
  obtain ⟨ds, s₂, h₂, hp⟩ := bind_ok hp
  obtain ⟨body, s₃, h₃, hp⟩ := bind_ok hp
  obtain ⟨u, s₄, h₄, hp⟩ := bind_ok hp
  obtain ⟨stop, s₅, h₅, hp⟩ := bind_ok hp
  have hb : Grammar.Before _ 0 s rs := ⟨h, hlen, hdepth⟩
  obtain ⟨ts, x, rs₂, took₂, hx⟩ := Grammar.takes_letBlock (Grammar.takes_declaration _) hb h₂
  obtain ⟨us, y, rs₃, took₃, hy⟩ := Grammar.takes_expression (hb.after took₂) h₃
  obtain ⟨semicolon, rs₄, hsemicolon, took₄⟩ := took_mark took₃.ahead h₄
  obtain ⟨hstop, rfl⟩ := expect_end took₄.ahead h₅
  refine ⟨_, _, ?_, .mk hx hy hsemicolon hstop⟩
  rw [took₂.answers, took₃.answers, took₄.answers]
  simp

end Fool
