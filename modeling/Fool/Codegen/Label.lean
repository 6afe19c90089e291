/-!
# Fresh labels

Two kinds of labels, each numbered from 0: `label<N>` inside a piece of code, `function<N>` at its entry.
-/

namespace Fool

/-- How many labels of each kind have been handed out. -/
structure LabelSupply where
  labels : Nat
  functions : Nat
deriving DecidableEq, Repr

namespace LabelSupply

/-- No label has been handed out. -/
def start : LabelSupply := ⟨0, 0⟩

/-- The text of a label inside a piece of code. -/
def labelText (n : Nat) : String := "label" ++ toString n

/-- The text of the label at an entry. -/
def functionText (n : Nat) : String := "function" ++ toString n

/-- A new label inside a piece of code. -/
def freshLabel (s : LabelSupply) : String × LabelSupply := (labelText s.labels, { s with labels := s.labels + 1 })

/-- A new label for an entry. -/
def freshFunction (s : LabelSupply) : String × LabelSupply :=
  (functionText s.functions, { s with functions := s.functions + 1 })

end LabelSupply

end Fool
