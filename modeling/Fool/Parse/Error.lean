import Fool.Token.Basic

/-!
# Faults in a source text

The causes for which reading a source text stops, each with its place and its one wording (`Cause.message`).
-/

namespace Fool

/-- Why a source text is refused. -/
inductive ParseError.Cause where
  /-- A character that begins no token. -/
  | unexpectedCharacter (c : Char)
  /-- A comment that is never closed. -/
  | unterminatedComment
  /-- A number beyond the largest 64-bit value. -/
  | integerOutOfRange (digits : String)
  /-- Another token stands where `expected` has to. -/
  | unexpectedToken (expected : String) (found : TokenKind)
  /-- A token that begins no expression stands where an expression has to. -/
  | expectedExpression (found : TokenKind)
  /-- Constructs are nested more than `limit` deep. -/
  | recursionLimit (limit : Nat)
deriving DecidableEq, Repr

/-- The wording of a cause. -/
def ParseError.Cause.message : ParseError.Cause → String
  | unexpectedCharacter c => "unexpected character '" ++ String.singleton c ++ "'"
  | unterminatedComment => "unterminated comment"
  | integerOutOfRange digits => "integer literal '" ++ digits ++ "' is out of range"
  | unexpectedToken expected found => "expected " ++ expected ++ " but found " ++ found.name
  | expectedExpression found => "expected expression but found " ++ found.name
  | recursionLimit limit => "expression nesting exceeds " ++ toString limit ++ " levels"

/-- A fault in a source text and its place. -/
structure ParseError where
  cause : ParseError.Cause
  location : Location
deriving DecidableEq, Repr

/-- The full message: place, then cause. -/
def ParseError.message (e : ParseError) : String := Location.label (some e.location) e.cause.message

end Fool
