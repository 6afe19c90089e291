import Fool.Parse.Error

/-!
# Looking ahead

A `Lookahead` is a source of tokens with the tokens that have been read from it and not yet taken. `peekAt k` reads
on until the token in place `k` is known, `advance` takes the first. A fault of the source is the answer of the call
that reads it, and is then behind: the tokens read before it stay, and the next reading goes on after it.
-/

namespace Fool

/-- A source of tokens and the tokens read from it in advance, oldest first. -/
structure Lookahead (σ : Type) where
  source : σ
  buffer : List Token

namespace Lookahead

variable {σ : Type}

/-- A step on a source looked ahead in, which a fault of the source may end. -/
abbrev Reading (σ : Type) := EStateM ParseError (Lookahead σ)

/-- Nothing has been read. -/
def ofSource (source : σ) : Lookahead σ := ⟨source, []⟩

variable (read : σ → Except ParseError Token × σ)

/-- Reads one token into the buffer. -/
def readOne : Reading σ Token := fun la =>
  match read la.source with
  | (.ok t, s) => .ok t ⟨s, la.buffer ++ [t]⟩
  | (.error e, s) => .error e ⟨s, la.buffer⟩

/-- Reads `n + 1` tokens into the buffer and gives the last of them. -/
def readOn : Nat → Reading σ Token
  | 0 => readOne read
  | n + 1 => do
    let _ ← readOne read
    readOn n

/-- The token `k` places ahead, which stays in its place. -/
def peekAt (k : Nat) : Reading σ Token := fun la =>
  match la.buffer[k]? with
  | some t => .ok t la
  | none => readOn read (k - la.buffer.length) la

/-- Takes the next token. -/
def advance : Reading σ Token := fun la =>
  match la.buffer with
  | t :: buffer => .ok t ⟨la.source, buffer⟩
  | [] =>
    match read la.source with
    | (.ok t, s) => .ok t ⟨s, []⟩
    | (.error e, s) => .error e ⟨s, []⟩

end Lookahead

end Fool
