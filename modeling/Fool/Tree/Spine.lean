import Fool.Tree.Basic

/-!
# Chains of operators

A chain `a op b op c …` is grouped to the left, so it is a tree whose left operands go deep. `Arena.leftSpine` walks
down the left operands and gives what it ends at and the operators passed, innermost first.
-/

namespace Fool

namespace Arena

/-- Walks down at most `n` left operands from `e`, as long as `follow` allows the operator. The operators passed
are put in front of `passed`, each with its right operand. -/
def leftSpineFrom (a : Arena) (follow : Operator → Bool) :
    Nat → ExprRef → List (Operator × ExprRef) → ExprRef × List (Operator × ExprRef)
  | 0, e, passed => (e, passed)
  | n + 1, e, passed =>
    match a.expr? e with
    | some (.binary op left right) =>
      if follow op then leftSpineFrom a follow n left ((op, right) :: passed) else (e, passed)
    | _ => (e, passed)

/-- The end of the left operands below `e`, and the operators with their right operands on the way, innermost
first. No spine without a cycle is longer than the arena has nodes. -/
def leftSpine (a : Arena) (follow : Operator → Bool) (e : ExprRef) : ExprRef × List (Operator × ExprRef) :=
  a.leftSpineFrom follow a.nodes.size e []

end Arena

end Fool
