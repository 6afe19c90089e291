/-!
# What a command answers

A command ends with texts for the two outputs and an exit code. A failure is shown by its headline and the causes
below it, each indented, and numbered if there are several.
-/

namespace Fool

/-- A failure: what could not be done, and why, from the nearest cause to the farthest. -/
structure Failure where
  headline : String
  causes : List String
deriving DecidableEq, Repr

namespace Failure

/-- Text with `first` in front of its first line and `others` in front of the other lines. -/
def indent (first others : String) (text : List Char) : String :=
  first ++ String.join (text.map fun c => if c = '\n' then "\n" ++ others else String.singleton c)

/-- The causes as they are shown. -/
def causeLines (causes : List String) : List String :=
  match causes with
  | [cause] => [indent "    " "    " cause.toList]
  | _ => causes.zipIdx.map fun (cause, i) =>
    let number := toString i
    indent ("".pushn ' ' (5 - number.length) ++ number ++ ": ") "       " cause.toList

/-- The failure as it is shown. -/
def text (f : Failure) : String :=
  let causes := if f.causes.isEmpty then [] else "" :: "Caused by:" :: causeLines f.causes
  String.join ((("Error: " ++ f.headline) :: causes).map (· ++ "\n"))

end Failure

/-- What a command answers. -/
structure Report where
  exitCode : UInt32
  stdout : String
  stderr : String
deriving DecidableEq, Repr

namespace Report

/-- All went well. -/
def success (stdout : String) : Report := ⟨0, stdout, ""⟩

/-- Something failed. -/
def failure (f : Failure) : Report := ⟨1, "", f.text⟩

/-- The command line cannot be read. -/
def misuse (usage : String) : Report := ⟨2, "", usage⟩

/-- With text in front of the second output. -/
def afterStderr (text : String) (r : Report) : Report := { r with stderr := text ++ r.stderr }

end Report

end Fool
