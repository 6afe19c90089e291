import Fool.Location

/-!
# Tokens

The vocabulary of the language: fifteen keywords, twenty marks, numbers and identifiers. Each keyword and mark has
a `spelling`, by which the lexer finds it, and a `name`, by which messages speak of it.
-/

namespace Fool

/-- The reserved words. -/
inductive Keyword where
  | letKw | inKw | varKw | funKw | classKw | newKw | ifKw | thenKw | elseKw | printKw
  | trueKw | falseKw | nullKw | intKw | boolKw
deriving DecidableEq, Repr

namespace Keyword

/-- All reserved words. -/
def all : List Keyword :=
  [.letKw, .inKw, .varKw, .funKw, .classKw, .newKw, .ifKw, .thenKw, .elseKw, .printKw,
    .trueKw, .falseKw, .nullKw, .intKw, .boolKw]

/-- How the word is written. -/
def spelling : Keyword → String
  | letKw => "let" | inKw => "in" | varKw => "var" | funKw => "fun" | classKw => "class" | newKw => "new"
  | ifKw => "if" | thenKw => "then" | elseKw => "else" | printKw => "print"
  | trueKw => "true" | falseKw => "false" | nullKw => "null" | intKw => "int" | boolKw => "bool"

/-- What messages call the word. -/
def name : Keyword → String
  | letKw => "Let" | inKw => "In" | varKw => "Var" | funKw => "Fun" | classKw => "Class" | newKw => "New"
  | ifKw => "If" | thenKw => "Then" | elseKw => "Else" | printKw => "Print"
  | trueKw => "True" | falseKw => "False" | nullKw => "Null" | intKw => "Int" | boolKw => "Bool"

/-- The reserved word with this spelling. -/
def ofSpelling? (word : String) : Option Keyword := all.find? fun k => k.spelling == word

end Keyword

/-- Punctuation and operators. -/
inductive Mark where
  | parenOpen | parenClose | braceOpen | braceClose | comma | dot | colon | semicolon | arrow
  | assign | equal | lessEqual | greaterEqual | not | and | or | plus | minus | times | divide
deriving DecidableEq, Repr

namespace Mark

/-- All marks. Those of two characters stand first, so that the first that fits is the longest that fits. -/
def all : List Mark :=
  [.arrow, .equal, .lessEqual, .greaterEqual, .and, .or,
    .parenOpen, .parenClose, .braceOpen, .braceClose, .comma, .dot, .colon, .semicolon,
    .assign, .not, .plus, .minus, .times, .divide]

/-- How the mark is written. -/
def spelling : Mark → List Char
  | parenOpen => ['('] | parenClose => [')'] | braceOpen => ['{'] | braceClose => ['}']
  | comma => [','] | dot => ['.'] | colon => [':'] | semicolon => [';'] | arrow => ['-', '>']
  | assign => ['='] | equal => ['=', '='] | lessEqual => ['<', '='] | greaterEqual => ['>', '=']
  | not => ['!'] | and => ['&', '&'] | or => ['|', '|']
  | plus => ['+'] | minus => ['-'] | times => ['*'] | divide => ['/']

/-- What messages call the mark. -/
def name : Mark → String
  | parenOpen => "ParenOpen" | parenClose => "ParenClose" | braceOpen => "BraceOpen" | braceClose => "BraceClose"
  | comma => "Comma" | dot => "Dot" | colon => "Colon" | semicolon => "Semicolon" | arrow => "Arrow"
  | assign => "Assign" | equal => "Equal" | lessEqual => "LE" | greaterEqual => "GE"
  | not => "Not" | and => "DoubleAnd" | or => "DoubleOr"
  | plus => "IAdd" | minus => "ISub" | times => "IMul" | divide => "IDiv"

/-- The longest mark with which the text begins. -/
def front? (text : List Char) : Option Mark := all.find? fun m => m.spelling.isPrefixOf text

end Mark

/-- What a token is, without its place. -/
inductive TokenKind where
  | keyword (k : Keyword)
  | mark (m : Mark)
  | number (value : Int64)
  | identifier (name : String)
  | endOfInput
deriving DecidableEq, Repr

/-- What messages call the token. -/
def TokenKind.name : TokenKind → String
  | keyword k => k.name
  | mark m => m.name
  | number v => "Number(" ++ toString v.toInt ++ ")"
  | identifier s => "Identifier(\"" ++ s ++ "\")"
  | endOfInput => "EOF"

/-- A token with the place of its first character and the offset behind its last. -/
structure Token where
  kind : TokenKind
  place : Position
  stop : Nat
deriving DecidableEq, Repr

/-- What is noted of the place of a token. -/
def Token.location (t : Token) : Location := t.place.location

end Fool
