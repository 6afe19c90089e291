import Fool.Parse.Types

/-!
# Reading expressions

Four levels of left-associative operators over unary and primary expressions:

    logical  := relation (("&&" | "||") relation)*
    relation := sum (("==" | "<=" | ">=") sum)*
    sum      := product (("+" | "-") product)*
    product  := unary (("*" | "/") unary)*
    unary    := "!" unary | primary

Every expression, and every operand of `!`, is one level of nesting. An operator expression is placed at its
operator, a call at the name called, `new` at the class, anything else at its first token.
-/

namespace Fool

namespace Grammar

open Fool.Parser

/-! ## Operators -/

/-- The operators of the loosest level. -/
def logicalOp? : TokenKind → Option Operator
  | .mark .and => some .and
  | .mark .or => some .or
  | _ => none

/-- The comparisons. -/
def relationOp? : TokenKind → Option Operator
  | .mark .equal => some .equal
  | .mark .lessEqual => some .lessEqual
  | .mark .greaterEqual => some .greaterEqual
  | _ => none

/-- The operators of sums. -/
def sumOp? : TokenKind → Option Operator
  | .mark .plus => some .add
  | .mark .minus => some .sub
  | _ => none

/-- The operators of products, the tightest level. -/
def productOp? : TokenKind → Option Operator
  | .mark .times => some .mul
  | .mark .divide => some .div
  | _ => none

/-- `(op operand)*` behind `left`, at most `n` times. -/
def chainFrom (op? : TokenKind → Option Operator) (operand : ParseM ExprRef) : Nat → ExprRef → ParseM ExprRef
  | 0, left => pure left
  | n + 1, left => do
    let t ← peekToken
    match op? t.kind with
    | none => return left
    | some op =>
      skip
      let right ← operand
      let whole ← addExpr (.binary op left right) t.location
      chainFrom op? operand n whole

/-- `operand (op operand)*`, grouped to the left. -/
def chain (bound : Nat) (op? : TokenKind → Option Operator) (operand : ParseM ExprRef) : ParseM ExprRef := do
  let first ← operand
  chainFrom op? operand bound first

/-- The four levels of operators over `unary`. -/
def logical (bound : Nat) (unary : ParseM ExprRef) : ParseM ExprRef :=
  let product := chain bound productOp? unary
  let sum := chain bound sumOp? product
  let relation := chain bound relationOp? sum
  chain bound logicalOp? relation

/-! ## Primary expressions -/

/-- `"(" (expr ("," expr)*)? ")"`. -/
def arguments (bound : Nat) (expr : ParseM ExprRef) : ParseM (List ExprRef) := do
  mark .parenOpen
  let args ← commaSeparated bound expr
  mark .parenClose
  return args

/-- `"{" expr "}"`. -/
def braced (expr : ParseM ExprRef) : ParseM ExprRef := do
  mark .braceOpen
  let e ← expr
  mark .braceClose
  return e

/-- `"(" expr ")"`. -/
def parenthesized (expr : ParseM ExprRef) : ParseM ExprRef := do
  mark .parenOpen
  let e ← expr
  mark .parenClose
  return e

/-- A name, a call of a name or a call of a method of a name. -/
def named (bound : Nat) (expr : ParseM ExprRef) : ParseM ExprRef := do
  let (name, place) ← identifier
  match ← peek with
  | .mark .parenOpen =>
    let args ← arguments bound expr
    addExpr (.call name args) place
  | .mark .dot =>
    skip
    let (method, _) ← identifier
    let args ← arguments bound expr
    addExpr (.methodCall name method args) place
  | _ => addExpr (.name name) place

/-- An expression without operators; `expr` reads the expressions inside. A minus belongs to the number behind it. -/
def primary (bound : Nat) (expr : ParseM ExprRef) : ParseM ExprRef := do
  let t ← peekToken
  match t.kind with
  | .number value =>
    skip
    addExpr (.int value) t.location
  | .mark .minus =>
    skip
    match ← peek with
    | .number value =>
      skip
      addExpr (.int (-value)) t.location
    | _ => refuse "integer literal"
  | .keyword .trueKw =>
    skip
    addExpr (.bool true) t.location
  | .keyword .falseKw =>
    skip
    addExpr (.bool false) t.location
  | .keyword .nullKw =>
    skip
    addExpr .null t.location
  | .mark .parenOpen => parenthesized expr
  | .keyword .ifKw =>
    skip
    let condition ← expr
    keyword .thenKw
    let onTrue ← braced expr
    keyword .elseKw
    let onFalse ← braced expr
    addExpr (.ifElse condition onTrue onFalse) t.location
  | .keyword .printKw =>
    skip
    let operand ← parenthesized expr
    addExpr (.print operand) t.location
  | .keyword .newKw =>
    skip
    let (name, place) ← identifier
    let args ← arguments bound expr
    addExpr (.new name args) place
  | .identifier _ => named bound expr
  | found => throw ⟨.expectedExpression found, t.location⟩

/-! ## Expressions -/

/-- `"!" unary | primary`. The number bounds the nesting, as the depth of the parser does. -/
def unary (bound : Nat) : Nat → ParseM ExprRef
  | 0 => tooDeep
  | n + 1 => do
    let t ← peekToken
    if t.kind = .mark .not then
      skip
      let operand ← nested (unary bound n)
      addExpr (.not operand) t.location
    else
      primary bound (nested (logical bound (unary bound n)))

/-- An expression. -/
def expression (bound : Nat) : ParseM ExprRef := nested (logical bound (unary bound maxDepth))

end Grammar

end Fool
