import Fool.Parse.State

/-!
# Reading types and lists

A simple type is `int`, `bool` or the name of a class; any type is a simple one or
`(` any types `)` `->` simple type. Lists with commas are read by `commaSeparated`; its argument `bound` is no less
than the tokens left, so it never ends a list early.
-/

namespace Fool

namespace Grammar

open Fool.Parser

/-- `item ("," item)*`, at most `n` items. -/
def items {α : Type} (item : ParseM α) : Nat → ParseM (List α)
  | 0 => pure []
  | n + 1 => do
    let a ← item
    if (← peek) = .mark .comma then
      skip
      return a :: (← items item n)
    else
      return [a]

/-- `(item ("," item)*)?` in front of a closing parenthesis. -/
def commaSeparated {α : Type} (bound : Nat) (item : ParseM α) : ParseM (List α) := do
  if (← peek) = .mark .parenClose then
    return []
  else
    items item bound

/-- `int`, `bool` or a class. -/
def simpleType : ParseM Ty := do
  match ← peek with
  | .keyword .intKw =>
    skip
    return .int
  | .keyword .boolKw =>
    skip
    return .bool
  | .identifier _ =>
    let (name, _) ← identifier
    return .object name
  | _ => refuse "type"

/-- A simple type or the type of a function. The number bounds the nesting, as the depth of the parser does. -/
def anyType (bound : Nat) : Nat → ParseM Ty
  | 0 => tooDeep
  | n + 1 => do
    if (← peek) = .mark .parenOpen then
      skip
      let params ← commaSeparated bound (nested (anyType bound n))
      mark .parenClose
      mark .arrow
      let ret ← simpleType
      return .arrow params ret
    else
      simpleType

end Grammar

end Fool
