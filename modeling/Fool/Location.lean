/-!
# Places in a source text

A `Position` is moved over text one character at a time (`Position.next`): a line feed starts a new line, any
other character is one column, and the offset counts bytes of the UTF-8 form. A `Location` is what is noted of it.
Lines and columns are numbers of 32 bits, and so is the offset that is noted: they start again behind `2 ^ 32`.
-/

namespace Fool

/-- What is noted of a number in 32 bits. -/
instance coeOfNat : Coe Nat UInt32 := ⟨UInt32.ofNat⟩

instance coeToNat : Coe UInt32 Nat := ⟨UInt32.toNat⟩

/-- A place in a source text. Line and column start at 1; the offset counts the bytes in front. -/
structure Location where
  line : UInt32
  column : UInt32
  offset : UInt32
deriving DecidableEq, Repr, Inhabited

namespace Location

/-- Line and column, as they stand in front of a message. -/
def text (l : Location) : String := toString l.line ++ ":" ++ toString l.column

/-- A message with its place in front, if the place is known. -/
def label (place : Option Location) (message : String) : String :=
  match place with
  | some l => l.text ++ ": " ++ message
  | none => message

end Location

/-- A place in a source text while it is read. -/
structure Position where
  line : UInt32
  column : UInt32
  offset : Nat
deriving DecidableEq, Repr, Inhabited

namespace Position

/-- What is noted of a place. -/
def location (l : Position) : Location := ⟨l.line, l.column, .ofNat l.offset⟩

/-- The place of the first character. -/
def start : Position := ⟨1, 1, 0⟩

/-- The place behind the character `c`. -/
def next (l : Position) (c : Char) : Position :=
  if c = '\n' then ⟨l.line + 1, 1, l.offset + c.utf8Size⟩ else ⟨l.line, l.column + 1, l.offset + c.utf8Size⟩

/-- The place behind a run of characters. -/
def after (l : Position) (text : List Char) : Position := text.foldl next l

@[simp] theorem after_nil (l : Position) : l.after [] = l := rfl

@[simp] theorem after_cons (l : Position) (c : Char) (text : List Char) :
    l.after (c :: text) = (l.next c).after text := rfl

/-- Moving over two runs is moving over both together. -/
theorem after_append (l : Position) (s t : List Char) : l.after (s ++ t) = (l.after s).after t :=
  List.foldl_append

end Position

end Fool
