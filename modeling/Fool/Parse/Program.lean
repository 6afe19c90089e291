import Fool.Parse.Decls

/-!
# Reading programs

A program is an optional block of declarations, an expression and a semicolon, and nothing else. The single parts
can be read too, one after the other, by the same parser.
-/

namespace Fool

namespace Parser

/-- Reads an expression. -/
def expression : ParseM ExprRef := do
  Grammar.expression (← bound)

/-- Reads a declaration. -/
def declaration : ParseM DeclRef := do
  Grammar.declaration (← bound) (maxDepth + 1)

/-- Reads one declaration or more. -/
def declarations : ParseM (List DeclRef) := do
  let n ← bound
  Grammar.declarations n (Grammar.declaration n (maxDepth + 1))

/-- Reads a simple type. -/
def simpleType : ParseM Ty := Grammar.simpleType

/-- Reads any type. -/
def anyType : ParseM Ty := do
  Grammar.anyType (← bound) (maxDepth + 1)

/-- Reads a whole program. -/
def program : ParseM Program := do
  let n ← bound
  let declarations ← Grammar.letBlock n (Grammar.declaration n (maxDepth + 1))
  let body ← Grammar.expression n
  mark .semicolon
  let _ ← expect .endOfInput
  return ⟨(← get).arena, declarations, body⟩

end Parser

/-- Reads the program in `text`. Names met before keep their symbols; new ones are kept also when reading fails. -/
def Program.parse (text : String) (names : Names) : Except ParseError Program × Names :=
  match Parser.program (.ofText text names) with
  | .ok p s => (.ok p, s.names)
  | .error e s => (.error e, s.names)

end Fool
