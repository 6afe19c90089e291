import Fool.Location

/-!
# Faults in the use of names

What can be wrong with the names of a program, each with its place, if it has one, and its one wording.
-/

namespace Fool

/-- What is wrong with a name. -/
inductive BindError.Cause where
  /-- The name is taken in the same scope. -/
  | duplicateDeclaration (name : String)
  /-- No declaration of the name is visible. -/
  | unresolvedIdentifier (name : String)
  /-- A method is called of something that is no object. -/
  | notAnObject (name : String)
  /-- There is no class of this name. -/
  | unknownClass (name : String)
  /-- The class has no such method. -/
  | unknownMethod (cls method : String)
  /-- A class is declared inside a function. -/
  | misplacedClass (name : String)
  /-- A function that is not global is used as a value. -/
  | localFunctionValue (name : String)
  /-- Expressions are nested more than `limit` deep. -/
  | nestingTooDeep (limit : Nat)
deriving DecidableEq, Repr

/-- A name between quotes. -/
def BindError.quoted (name : String) : String := "'" ++ name ++ "'"

/-- The wording of a cause. -/
def BindError.Cause.message : BindError.Cause → String
  | duplicateDeclaration name => quoted name ++ " is already declared in this scope"
  | unresolvedIdentifier name => "unresolved identifier " ++ quoted name
  | notAnObject name => quoted name ++ " is not an object"
  | unknownClass name => "unknown class " ++ quoted name
  | unknownMethod cls method => "class " ++ quoted cls ++ " has no method " ++ quoted method
  | misplacedClass name => "class " ++ quoted name ++ " can only be declared at the outermost scope"
  | localFunctionValue name =>
    quoted name ++ " is not declared at the outermost scope and cannot be used as a value"
  | nestingTooDeep limit => "expression nesting exceeds " ++ toString limit ++ " levels"

/-- A fault in the use of a name. -/
structure BindError where
  cause : BindError.Cause
  location : Option Location
deriving DecidableEq, Repr

/-- The full message: place, then cause. -/
def BindError.message (e : BindError) : String := Location.label e.location e.cause.message

/-- The messages of several faults, one per line. -/
def BindError.lines (errors : List BindError) : String := "\n".intercalate (errors.map message)

/-- The headline over several faults. -/
def BindError.summary (errors : List BindError) : String := toString errors.length ++ " binding error(s)"

end Fool
