import Fool.Command.Perform

/-!
# The program

Reads the command line, gives the commands access to the files of the system, and prints what they answer.
-/

namespace Fool

/-- The text and the number of a refusal by the system. -/
def systemText (details : String) (code : UInt32) : String := details ++ " (os error " ++ toString code ++ ")"

/-- The text of a refusal. -/
def refusalText : IO.Error → String
  | .noFileOrDirectory _ code details => systemText details code
  | .noSuchThing _ code details => systemText details code
  | .permissionDenied _ code details => systemText details code
  | .inappropriateType _ code details => systemText details code
  | .invalidArgument _ code details => systemText details code
  | .alreadyExists _ code details => systemText details code
  | .resourceExhausted _ code details => systemText details code
  | .otherError code details => systemText details code
  | e => toString e

/-- The files of the system. -/
def systemFiles : Files IO where
  read path := do
    try
      let bytes ← (← IO.FS.Handle.mk path .read).readBinToEnd
      match String.fromUTF8? bytes with
      | some text => return .ok text
      | none => return .error "stream did not contain valid UTF-8"
    catch e => return .error (refusalText e)
  write path text := do
    try
      let handle ← IO.FS.Handle.mk path .write
      handle.putStr text
      handle.flush
      return .ok ()
    catch e => return .error (refusalText e)

end Fool

/-- Answers the command line. -/
def main (args : List String) : IO UInt32 := do
  let report ← (Fool.Request.ofArgs args).answer Fool.systemFiles
  IO.print report.stdout
  IO.eprint report.stderr
  return report.exitCode
