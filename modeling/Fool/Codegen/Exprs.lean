import Fool.Codegen.State
import Fool.Binding.Basic

/-!
# Code for expressions

The code of an expression leaves its value on the stack. Operands are evaluated from left to right, but those of
`>=` from right to left, since it is `<=` with its operands exchanged; arguments of a call from right to left, those
of `new` from left to right. A chain of operators counts as one level of nesting, up to its innermost `>=`.
-/

namespace Fool

namespace Generator

/-- How deep expressions may be nested. -/
def maxNesting : Nat := 512

/-- The code behind the left operand that evaluates the right one and applies the operator. For `>=` the operands
come exchanged. -/
def operatorTail (op : Operator) (right : Code) : GenM Code := do
  match op with
  | .add => return right ++ [.arith .add]
  | .sub => return right ++ [.arith .sub]
  | .mul | .and => return right ++ [.arith .mul]
  | .div => return right ++ [.arith .div]
  | .equal =>
    let onTrue ← freshLabel
    let done ← freshLabel
    return right ++ [.branch .equal onTrue] ++ Code.truth onTrue done
  | .lessEqual | .greaterEqual =>
    let onTrue ← freshLabel
    let done ← freshLabel
    return right ++ [.branch .lessEqual onTrue] ++ Code.truth onTrue done
  | .or =>
    let onTrue ← freshLabel
    let done ← freshLabel
    return [.push 1, .branch .equal onTrue] ++ right ++ [.push 1, .branch .equal onTrue] ++ Code.truth onTrue done

/-- The code of an operator from the code of its operands. -/
def operatorCode (op : Operator) (left right : Code) : GenM Code := do
  if op = .greaterEqual then
    return right ++ (← operatorTail op left)
  else
    return left ++ (← operatorTail op right)

variable (arena : Arena) (resolutions : Resolutions) (frameBase : Int64)

/-- What a reference means. -/
def resolution (e : ExprRef) : GenM Resolution :=
  match resolutions.get? e with
  | some r => return r
  | none => throw (.unresolved e)

/-- The address of the frame or object that holds what `r` means. Inside a class the way from frame to frame leads
to an object, so the global frame is addressed directly. -/
def frameCode (r : Resolution) : GenM Code := do
  if (← get).inClass ∧ r.entry.depth = 0 then
    return [.push frameBase]
  else
    return .load .fp :: List.replicate r.hops .loadWord

/-- The access link and the entry of the function that a call means: of a function the frame that declares it, of a
method the object, of a function value the global frame. -/
def targetCode (r : Resolution) : GenM Code := do
  let frame ← frameCode frameBase r
  match r.entry.kind with
  | .func => return frame ++ Code.duplicate ++ Code.loadAt r.entry.offset
  | .method => return frame ++ Code.duplicate ++ [.loadWord] ++ Code.loadAt r.entry.offset
  | _ => return [.push frameBase] ++ frame ++ Code.loadAt r.entry.offset

/-- The code of the end of a chain: of a single `>=`, or of an operand. `operand` gives the code of operands. -/
def headCode (operand : ExprRef → GenM Code) (first : ExprRef) : GenM Code :=
  match arena.expr? first with
  | some (.binary op left right) => do
    let left ← operand left
    let right ← operand right
    operatorCode op left right
  | _ => operand first

/-- The code of a chain of operators: that of its end, then for each operator what follows its left operand. -/
def chainCode (operand : ExprRef → GenM Code) (e : ExprRef) : GenM Code := do
  let spine := arena.leftSpine (fun op => op ≠ .greaterEqual) e
  let head ← headCode arena operand spine.1
  let tails ← spine.2.mapM fun (op, right) => do operatorTail op (← operand right)
  return head ++ tails.flatten

/-- The code of an expression, whose parts may be nested as deep as the number says. -/
def exprCode : Nat → ExprRef → GenM Code
  | 0, _ => throw (.nestingTooDeep maxNesting)
  | n + 1, e => do
    match arena.expr? e with
    | none => throw (.missingExpression e)
    | some (.int v) => return [.push v]
    | some (.bool b) => return [.push (if b then 1 else 0)]
    | some .null => return [.push (-1)]
    | some (.binary ..) => chainCode arena (exprCode n) e
    | some (.not operand) =>
      let onTrue ← freshLabel
      let done ← freshLabel
      let operand ← exprCode n operand
      return operand ++ [.push 0, .branch .equal onTrue] ++ Code.truth onTrue done
    | some (.ifElse condition onTrue onFalse) =>
      let first ← freshLabel
      let done ← freshLabel
      let condition ← exprCode n condition
      let onFalse ← exprCode n onFalse
      let onTrue ← exprCode n onTrue
      return condition ++ [.push 1, .branch .equal first] ++ onFalse ++ [.jump done, .label first] ++ onTrue
        ++ [.label done]
    | some (.print operand) =>
      let operand ← exprCode n operand
      return operand ++ Code.duplicate ++ [.print]
    | some (.name _) =>
      let r ← resolution resolutions e
      let frame ← frameCode frameBase r
      return frame ++ Code.loadAt r.entry.offset
    | some (.call _ args) =>
      let r ← resolution resolutions e
      let args ← args.reverse.mapM (exprCode n)
      let target ← targetCode frameBase r
      return [.load .fp] ++ args.flatten ++ target ++ [.jumpSub]
    | some (.methodCall _ _ args) =>
      let r ← resolution resolutions e
      match r.method with
      | none => throw (.missingMethod e)
      | some method =>
        let args ← args.reverse.mapM (exprCode n)
        let frame ← frameCode frameBase r
        return [.load .fp] ++ args.flatten ++ frame ++ Code.loadAt r.entry.offset ++ Code.duplicate ++ [.loadWord]
          ++ Code.loadAt method.offset ++ [.jumpSub]
    | some (.new _ args) =>
      let r ← resolution resolutions e
      let values ← args.mapM (exprCode n)
      return values.flatten ++ (args.map fun _ => Code.pushToHeap).flatten
        ++ [.push (frameBase + Int64.ofInt r.entry.offset), .loadWord, .load .hp, .storeWord, .load .hp]
        ++ Code.bumpHeap

end Generator

end Fool
