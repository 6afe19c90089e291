import Fool.Token.Lexer
import Fool.Token.Lookahead
import Fool.Tree.Basic

/-!
# What a parser holds, and its single steps

A `Parser` is the unread tokens, the tree built so far, the names met so far and how deep the constructs being read
are nested. A step keeps all it has done when it fails. `nested` is the only way in which the grammar goes deeper:
it is refused beyond `maxDepth`, and it comes back to the depth it started from on success and on failure alike.
-/

namespace Fool

/-- The state of reading a program. -/
structure Parser where
  tokens : Lookahead Cursor
  arena : Arena
  names : Names
  depth : Nat

/-- A step of reading a program. -/
abbrev ParseM := EStateM ParseError Parser

namespace Parser

/-- How deep constructs may be nested. -/
def maxDepth : Nat := 64

/-- In front of a text, with the names met before. -/
def ofText (text : String) (names : Names) : Parser := ⟨.ofSource (.ofString text), .empty, names, 0⟩

/-- A step on the tokens alone. -/
def onTokens {α : Type} (r : Lookahead.Reading Cursor α) : ParseM α := fun s =>
  match r s.tokens with
  | .ok a tokens => .ok a { s with tokens }
  | .error e tokens => .error e { s with tokens }

/-! ## Tokens -/

/-- The current token, which stays. -/
def peekToken : ParseM Token := onTokens (Lookahead.peekAt Cursor.next 0)

/-- What the current token is. -/
def peek : ParseM TokenKind := do
  let t ← peekToken
  return t.kind

/-- The place of the current token. -/
def location : ParseM Location := do
  let t ← peekToken
  return t.location

/-- Takes the current token. -/
def advance : ParseM Token := onTokens (Lookahead.advance Cursor.next)

/-- Passes over the current token. -/
def skip : ParseM Unit := do
  let _ ← advance

/-- The fault that the current token is not what has to stand there. -/
def unexpected (expected : String) : ParseM ParseError := do
  let t ← peekToken
  return ⟨.unexpectedToken expected t.kind, t.location⟩

/-- Refuses the current token. -/
def refuse {α : Type} (expected : String) : ParseM α := do
  throw (← unexpected expected)

/-- Takes the current token, which has to be `kind`. -/
def expect (kind : TokenKind) : ParseM Token := do
  if (← peek) = kind then advance else refuse kind.name

/-- Passes over a mark that has to stand here. -/
def mark (m : Mark) : ParseM Unit := do
  let _ ← expect (.mark m)

/-- Passes over a reserved word that has to stand here. -/
def keyword (k : Keyword) : ParseM Unit := do
  let _ ← expect (.keyword k)

/-! ## Names and nodes -/

/-- The symbol of a name. -/
def intern (name : String) : ParseM Symbol := fun s =>
  let (symbol, names) := s.names.intern name
  .ok symbol { s with names }

/-- Takes an identifier, which has to stand here, and gives its symbol and its place. -/
def identifier : ParseM (Symbol × Location) := do
  let t ← peekToken
  match t.kind with
  | .identifier name =>
    skip
    return (← intern name, t.location)
  | _ => refuse "identifier"

/-- Adds an expression to the tree. -/
def addExpr (e : Expr) (place : Location) : ParseM ExprRef := fun s =>
  let (r, arena) := s.arena.addExpr e (some place)
  .ok r { s with arena }

/-- Adds a declaration to the tree. -/
def addDecl (d : Decl) : ParseM DeclRef := fun s =>
  let (r, arena) := s.arena.addDecl d
  .ok r { s with arena }

/-! ## Nesting -/

/-- The fault of nesting too deep, at the current token. -/
def tooDeep {α : Type} : ParseM α := do
  throw ⟨.recursionLimit maxDepth, ← location⟩

/-- One level deeper, unless the limit is reached. -/
def enter : ParseM Unit := fun s =>
  if s.depth < maxDepth then .ok () { s with depth := s.depth + 1 } else tooDeep s

/-- One level back. -/
def leave : ParseM Unit := fun s => .ok () { s with depth := s.depth - 1 }

/-- A step one level deeper. It comes back to the level it started from also when it fails. -/
def nested {α : Type} (p : ParseM α) : ParseM α := do
  enter
  fun s =>
    match p s with
    | .ok a s => .ok a { s with depth := s.depth - 1 }
    | .error e s => .error e { s with depth := s.depth - 1 }

/-! ## Bounds -/

/-- No fewer than the tokens that are left, the end included. -/
def bound : ParseM Nat := fun s => .ok (s.tokens.buffer.length + s.tokens.source.rest.length + 1) s

end Parser

end Fool
