import Fool.Tree.Basic

/-!
# Faults of code generation

What has to hold of a program and of its bindings before it can become code.
-/

namespace Fool

/-- Why there is no code. -/
inductive CodegenError where
  | bindingErrors (count : Nat)
  | unresolved (e : ExprRef)
  | missingMethod (e : ExprRef)
  | missingExpression (e : ExprRef)
  | missingDeclaration (d : DeclRef)
  | nestingTooDeep (limit : Nat)
deriving DecidableEq, Repr

namespace CodegenError

/-- How messages show the number of an expression. -/
def exprText (e : ExprRef) : String := "ExprRef(" ++ toString e.index ++ ")"

/-- How messages show the number of a declaration. -/
def declText (d : DeclRef) : String := "DeclRef(" ++ toString d.index ++ ")"

/-- The wording of a fault. -/
def message : CodegenError → String
  | bindingErrors n => "binding reported " ++ toString n ++ " error(s); refusing to generate code"
  | unresolved e => "expression " ++ exprText e ++ " has no resolution"
  | missingMethod e => "dotted call " ++ exprText e ++ " has no method resolution"
  | missingExpression e => "expression " ++ exprText e ++ " is not in the program"
  | missingDeclaration d => "declaration " ++ declText d ++ " is not in the program"
  | nestingTooDeep limit => "expression nesting exceeds " ++ toString limit ++ " levels"

end CodegenError

end Fool
