import Fool.Parse.Exprs

/-!
# Reading declarations

    variable := "var" ID ":" type "=" expr ";"
    function := "fun" ID ":" simple-type "(" params? ")" ("let" declaration+ "in")? expr ";"
    class    := "class" ID "(" fields? ")" "{" function* "}"

Parameters have any type, fields and results a simple one. The local declarations of a function are one level of
nesting, also when there are none.
-/

namespace Fool

namespace Grammar

open Fool.Parser

/-- Whether a declaration begins here. -/
def atDeclaration : ParseM Bool := do
  match ← peek with
  | .keyword .varKw | .keyword .funKw | .keyword .classKw => return true
  | _ => return false

/-- `declaration*`, at most `n`; stops in front of the first token that begins none. -/
def declarationsFrom (declaration : ParseM DeclRef) : Nat → ParseM (List DeclRef)
  | 0 => pure []
  | n + 1 => do
    if ← atDeclaration then
      let d ← declaration
      return d :: (← declarationsFrom declaration n)
    else
      return []

/-- `declaration+`. -/
def declarations (bound : Nat) (declaration : ParseM DeclRef) : ParseM (List DeclRef) := do
  if ← atDeclaration then
    declarationsFrom declaration bound
  else
    refuse "declaration"

/-- `("let" declaration+ "in")?`. -/
def letBlock (bound : Nat) (declaration : ParseM DeclRef) : ParseM (List DeclRef) := do
  if (← peek) = .keyword .letKw then
    skip
    let ds ← declarations bound declaration
    keyword .inKw
    return ds
  else
    return []

/-- `ID ":" type`, placed at the name. -/
def typedName (type : ParseM Ty) : ParseM TypedName := do
  let (name, place) ← identifier
  mark .colon
  let ty ← type
  return ⟨name, ty, some place⟩

/-- A variable, placed at its first word. -/
def variableDecl (bound : Nat) : ParseM Variable := do
  let place ← location
  keyword .varKw
  let (name, _) ← identifier
  mark .colon
  let ty ← anyType bound (maxDepth + 1)
  mark .assign
  let init ← expression bound
  mark .semicolon
  return ⟨name, ty, init, some place⟩

/-- A function or a method, placed at its first word. -/
def function (bound : Nat) (declaration : ParseM DeclRef) : ParseM Function := do
  let place ← location
  keyword .funKw
  let (name, _) ← identifier
  mark .colon
  let returnType ← simpleType
  mark .parenOpen
  let params ← commaSeparated bound (typedName (anyType bound (maxDepth + 1)))
  mark .parenClose
  let locals ← nested (letBlock bound declaration)
  let body ← expression bound
  mark .semicolon
  return ⟨name, returnType, params, locals, body, some place⟩

/-- `function*`, at most `n`. -/
def methods (function : ParseM Function) : Nat → ParseM (List Function)
  | 0 => pure []
  | n + 1 => do
    if (← peek) = .keyword .funKw then
      let f ← function
      return f :: (← methods function n)
    else
      return []

/-- A class, placed at its first word. -/
def classDecl (bound : Nat) (declaration : ParseM DeclRef) : ParseM Class := do
  let place ← location
  keyword .classKw
  let (name, _) ← identifier
  mark .parenOpen
  let fields ← commaSeparated bound (typedName simpleType)
  mark .parenClose
  mark .braceOpen
  let ms ← methods (function bound declaration) bound
  mark .braceClose
  return ⟨name, fields, ms, some place⟩

/-- A declaration. The number bounds the nesting of functions, as the depth of the parser does. -/
def declaration (bound : Nat) : Nat → ParseM DeclRef
  | 0 => tooDeep
  | n + 1 => do
    match ← peek with
    | .keyword .varKw => addDecl (.varDecl (← variableDecl bound))
    | .keyword .funKw => addDecl (.funDecl (← function bound (declaration bound n)))
    | .keyword .classKw => addDecl (.classDecl (← classDecl bound (declaration bound n)))
    | _ => refuse "declaration"

end Grammar

end Fool
