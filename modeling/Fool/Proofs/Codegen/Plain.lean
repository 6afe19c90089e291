import Fool.Codegen.Exprs
import Fool.Proofs.Tree.Nesting

/-!
# A chain of operators has the code of its operators

`plainCode` gives an expression its code operator by operator: that of the left operand, that of the right one, and the
operator behind them, a level of nesting for every operator. `chainCode` goes over a whole chain instead, and a chain is
one level. Where the plain way does not run out of levels, both give the same code with the same labels and leave the
same state, or fail with the same fault (`Follows`): one operator more at the end of a chain adds what `operatorCode`
puts behind its left operand (`follows_spine`), and more levels change nothing (`follows_exprCode`).
-/

namespace Fool

namespace Generator

/-! ## Code operator by operator -/

section Plain

variable (arena : Arena) (resolutions : Resolutions) (frameBase : Int64)

/-- The code of an expression from the code of its parts, the same for every operator. -/
def nodeCode (part : ExprRef → GenM Code) (e : ExprRef) : Expr → GenM Code
  | .int v => return [.push v]
  | .bool b => return [.push (if b then 1 else 0)]
  | .null => return [.push (-1)]
  | .binary op left right => do
    let left ← part left
    let right ← part right
    operatorCode op left right
  | .not operand => do
    let onTrue ← freshLabel
    let done ← freshLabel
    let operand ← part operand
    return operand ++ [.push 0, .branch .equal onTrue] ++ Code.truth onTrue done
  | .ifElse condition onTrue onFalse => do
    let first ← freshLabel
    let done ← freshLabel
    let condition ← part condition
    let onFalse ← part onFalse
    let onTrue ← part onTrue
    return condition ++ [.push 1, .branch .equal first] ++ onFalse ++ [.jump done, .label first] ++ onTrue
      ++ [.label done]
  | .print operand => do
    let operand ← part operand
    return operand ++ Code.duplicate ++ [.print]
  | .name _ => do
    let r ← resolution resolutions e
    let frame ← frameCode frameBase r
    return frame ++ Code.loadAt r.entry.offset
  | .call _ args => do
    let r ← resolution resolutions e
    let args ← args.reverse.mapM part
    let target ← targetCode frameBase r
    return [.load .fp] ++ args.flatten ++ target ++ [.jumpSub]
  | .methodCall _ _ args => do
    let r ← resolution resolutions e
    match r.method with
    | none => throw (.missingMethod e)
    | some method =>
      let args ← args.reverse.mapM part
      let frame ← frameCode frameBase r
      return [.load .fp] ++ args.flatten ++ frame ++ Code.loadAt r.entry.offset ++ Code.duplicate ++ [.loadWord]
        ++ Code.loadAt method.offset ++ [.jumpSub]
  | .new _ args => do
    let r ← resolution resolutions e
    let values ← args.mapM part
    return values.flatten ++ (args.map fun _ => Code.pushToHeap).flatten
      ++ [.push (frameBase + Int64.ofInt r.entry.offset), .loadWord, .load .hp, .storeWord, .load .hp]
      ++ Code.bumpHeap

/-- The code of an expression, operator by operator; every expression is a level of nesting. -/
def plainCode : Nat → ExprRef → GenM Code
  | 0, _ => throw (.nestingTooDeep maxNesting)
  | n + 1, e =>
    match arena.expr? e with
    | none => throw (.missingExpression e)
    | some x => nodeCode resolutions frameBase (plainCode n) e x

end Plain

/-! ## Steps that follow others as long as those have levels left -/

section Follows

variable {α β : Type}

/-- Where `m` does not run out of levels, `m'` does the same. -/
def Follows (m' m : GenM α) : Prop := ∀ g, m g ≠ .error (.nestingTooDeep maxNesting) → m' g = m g

theorem Follows.refl (m : GenM α) : Follows m m := fun _ _ => rfl

theorem Follows.tooDeep (m' : GenM α) : Follows m' (throw (.nestingTooDeep maxNesting)) := fun _ h => absurd rfl h

theorem Follows.bind {m' m : GenM α} {f' f : α → GenM β} (hm : Follows m' m) (hf : ∀ a, Follows (f' a) (f a)) :
    Follows (m' >>= f') (m >>= f) := by
  intro g hg
  have hrun : ∀ (m : GenM α) (f : α → GenM β), (m >>= f) g = (m g >>= fun r => f r.1 r.2) := fun _ _ => rfl
  rw [hrun] at hg ⊢
  rw [hrun]
  cases hmg : m g with
  | error e =>
    have hne : m g ≠ .error (.nestingTooDeep maxNesting) := by
      intro heq
      cases hmg.symm.trans heq
      exact hg (by rw [hmg]; rfl)
    rw [hm g hne, hmg]
    rfl
  | ok r =>
    rw [hmg] at hg
    rw [hm g (by rw [hmg]; exact nofun), hmg]
    exact hf r.1 r.2 hg

theorem Follows.mapM {γ : Type} {f' f : γ → GenM α} (h : ∀ x, Follows (f' x) (f x)) :
    ∀ xs : List γ, Follows (xs.mapM f') (xs.mapM f)
  | [] => .refl _
  | x :: xs => by
    rw [List.mapM_cons, List.mapM_cons]
    exact (h x).bind fun _ => (Follows.mapM h xs).bind fun _ => .refl _

end Follows

variable {arena : Arena} {resolutions : Resolutions} {frameBase : Int64} {n m : Nat} {e : ExprRef}

/-- Parts that follow give a whole that follows. -/
theorem follows_nodeCode {part' part : ExprRef → GenM Code} (h : ∀ e, Follows (part' e) (part e)) (e : ExprRef)
    (x : Expr) : Follows (nodeCode resolutions frameBase part' e x) (nodeCode resolutions frameBase part e x) := by
  cases x with
  | int | bool | null | name => exact .refl _
  | binary op left right => exact (h left).bind fun _ => (h right).bind fun _ => .refl _
  | not operand =>
    exact (Follows.refl _).bind fun _ => (Follows.refl _).bind fun _ => (h operand).bind fun _ => .refl _
  | ifElse condition onTrue onFalse =>
    refine (Follows.refl _).bind fun _ => (Follows.refl _).bind fun _ => (h condition).bind fun _ => ?_
    exact (h onFalse).bind fun _ => (h onTrue).bind fun _ => .refl _
  | print operand => exact (h operand).bind fun _ => .refl _
  | call function args =>
    exact (Follows.refl _).bind fun _ => (Follows.mapM h args.reverse).bind fun _ => .refl _
  | methodCall receiver method args =>
    refine (Follows.refl _).bind fun r => ?_
    cases r.method with
    | none => exact .refl _
    | some method => exact (Follows.mapM h args.reverse).bind fun _ => .refl _
  | new name args => exact (Follows.refl _).bind fun _ => (Follows.mapM h args).bind fun _ => .refl _

/-- Any other expression than that of an operator has the code that its parts give it. -/
theorem exprCode_node {x : Expr} (hx : arena.expr? e = some x) (hop : ∀ op left right, x ≠ .binary op left right) :
    exprCode arena resolutions frameBase (n + 1) e =
      nodeCode resolutions frameBase (exprCode arena resolutions frameBase n) e x := by
  rw [exprCode, hx]
  cases x with
  | binary op left right => exact absurd rfl (hop op left right)
  | _ => rfl

theorem plainCode_node {x : Expr} (hx : arena.expr? e = some x) : plainCode arena resolutions frameBase (n + 1) e =
    nodeCode resolutions frameBase (plainCode arena resolutions frameBase n) e x := by
  rw [plainCode, hx]

/-! ## Chains -/

/-- The code of a chain from the operators found on a walk down the left operands. -/
def spineCode (arena : Arena) (operand : ExprRef → GenM Code) (spine : ExprRef × List (Operator × ExprRef)) :
    GenM Code := do
  let head ← headCode arena operand spine.1
  let tails ← spine.2.mapM fun (op, right) => do operatorTail op (← operand right)
  return head ++ tails.flatten

theorem chainCode_eq (operand : ExprRef → GenM Code) : chainCode arena operand e =
    spineCode arena operand (arena.leftSpine (fun op => op ≠ .greaterEqual) e) := rfl

/-- A chain of which only the end has been found. -/
theorem spineCode_nil (operand : ExprRef → GenM Code) (e : ExprRef) :
    spineCode arena operand (e, []) = headCode arena operand e := by
  simp [spineCode]

/-- One operator more at the end of a chain. -/
theorem spineCode_concat (operand : ExprRef → GenM Code) (spine : ExprRef × List (Operator × ExprRef)) {op : Operator}
    (hop : op ≠ .greaterEqual) (right : ExprRef) :
    spineCode arena operand (spine.1, spine.2 ++ [(op, right)]) = (do
      let left ← spineCode arena operand spine
      let right ← operand right
      operatorCode op left right) := by
  simp [spineCode, operatorCode, hop, ← List.append_assoc]

/-- The end of a chain is a single operator, or an operand. -/
theorem headCode_binary {operand : ExprRef → GenM Code} {op : Operator} {left right : ExprRef}
    (hx : arena.expr? e = some (.binary op left right)) :
    headCode arena operand e = nodeCode resolutions frameBase operand e (.binary op left right) := by
  rw [headCode, hx]
  rfl

theorem headCode_operand {operand : ExprRef → GenM Code}
    (hop : ∀ op left right, arena.expr? e ≠ some (.binary op left right)) : headCode arena operand e = operand e := by
  unfold headCode
  split
  · exact absurd ‹_› (hop _ _ _)
  · rfl

/-- **The code of a chain follows the code that its last operator has operator by operator,** however far the walk down
the left operands goes. -/
theorem follows_spine {operand : ExprRef → GenM Code}
    (h : ∀ m ≤ n, ∀ e, Follows (operand e) (plainCode arena resolutions frameBase m e)) (follow : Operator → Bool)
    (hfollow : follow .greaterEqual = false) (k : Nat) :
    ∀ {m : Nat} {e left right : ExprRef} {op : Operator}, m ≤ n → arena.expr? e = some (.binary op left right) →
      Follows (spineCode arena operand (arena.leftSpineFrom follow k e []))
        (nodeCode resolutions frameBase (plainCode arena resolutions frameBase m) e (.binary op left right)) := by
  induction k with
  | zero =>
    intro m e left right op hm hx
    rw [Arena.leftSpineFrom, spineCode_nil, headCode_binary hx]
    exact follows_nodeCode (h m hm) e _
  | succ k ih =>
    intro m e left right op hm hx
    cases hop : follow op with
    | false =>
      rw [Arena.leftSpineFrom_stop (fun op' l r hx' => by cases hx.symm.trans hx'; exact hop), spineCode_nil,
        headCode_binary hx]
      exact follows_nodeCode (h m hm) e _
    | true =>
      have hne : op ≠ .greaterEqual := fun heq => by simp [heq, hfollow] at hop
      rw [Arena.leftSpineFrom_follow hx hop, Arena.leftSpineFrom_append, spineCode_concat _ _ hne]
      refine Follows.bind ?_ fun _ => (h m hm right).bind fun _ => .refl _
      -- the left operand is the rest of the chain, or an operand as any other
      by_cases hl : ∃ op' left' right', arena.expr? left = some (.binary op' left' right')
      · obtain ⟨op', left', right', hl⟩ := hl
        cases m with
        | zero => exact .tooDeep _
        | succ m =>
          rw [plainCode_node hl]
          exact ih (Nat.le_of_succ_le hm) hl
      · simp only [not_exists] at hl
        rw [Arena.leftSpineFrom_stop fun op' l r hx' => absurd hx' (hl op' l r), spineCode_nil, headCode_operand hl]
        exact h m hm left

/-- More levels do not change the code of an expression, and chains do not either. -/
theorem follows_exprCode (h : m ≤ n) (e : ExprRef) :
    Follows (exprCode arena resolutions frameBase n e) (plainCode arena resolutions frameBase m e) := by
  induction n generalizing m e with
  | zero =>
    obtain rfl : m = 0 := by omega
    exact .tooDeep _
  | succ n ih =>
    cases m with
    | zero => exact .tooDeep _
    | succ m =>
      cases hx : arena.expr? e with
      | none =>
        rw [exprCode, plainCode, hx]
        exact .refl _
      | some x =>
        rw [plainCode_node hx]
        by_cases hop : ∃ op left right, x = .binary op left right
        · obtain ⟨op, left, right, rfl⟩ := hop
          have hcode : exprCode arena resolutions frameBase (n + 1) e =
              chainCode arena (exprCode arena resolutions frameBase n) e := by rw [exprCode, hx]
          rw [hcode, chainCode_eq]
          exact follows_spine (fun m hm => ih hm) _ rfl _ (by omega) hx
        · rw [exprCode_node hx fun op left right heq => hop ⟨op, left, right, heq⟩]
          exact follows_nodeCode (fun e => ih (by omega) e) e x

/-- **The code of a chain of operators is the code of its operators.** Where the code of the left operand, that of the
right one and the operator behind them are generated without running out of levels, and the operands again operator by
operator, going over the chain gives the same instructions with the same labels, the same labels and units afterwards,
or the same fault. -/
theorem chainCode_eq_plain (arena : Arena) (resolutions : Resolutions) (frameBase : Int64) (n : Nat)
    {e left right : ExprRef} {op : Operator} (hx : arena.expr? e = some (.binary op left right)) (g : Generator)
    (h : (do
      let left ← plainCode arena resolutions frameBase n left
      let right ← plainCode arena resolutions frameBase n right
      operatorCode op left right : GenM Code) g ≠ .error (.nestingTooDeep maxNesting)) :
    chainCode arena (exprCode arena resolutions frameBase n) e g = (do
      let left ← plainCode arena resolutions frameBase n left
      let right ← plainCode arena resolutions frameBase n right
      operatorCode op left right : GenM Code) g :=
  follows_spine (fun _ hm => follows_exprCode hm) _ rfl _ (Nat.le_refl n) hx g h

/-- The expressions of `1 >= 2 & 1 | 1 >= 2`, the last of them the whole chain. -/
def comparisons : Arena where
  nodes := #[⟨.int 1, none⟩, ⟨.int 2, none⟩, ⟨.binary .greaterEqual ⟨0⟩ ⟨1⟩, none⟩, ⟨.binary .and ⟨2⟩ ⟨0⟩, none⟩,
    ⟨.binary .or ⟨3⟩ ⟨2⟩, none⟩]
  decls := #[]

theorem chainCode_eq_plain_comparisons :
    chainCode comparisons (exprCode comparisons (.blank 0) 0 511) ⟨4⟩ .start = (do
      let left ← plainCode comparisons (.blank 0) 0 511 ⟨3⟩
      let right ← plainCode comparisons (.blank 0) 0 511 ⟨2⟩
      operatorCode .or left right : GenM Code) .start :=
  chainCode_eq_plain comparisons (.blank 0) 0 511 rfl .start nofun

end Generator

end Fool
