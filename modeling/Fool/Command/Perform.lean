import Fool.Command.Args
import Fool.Command.Report
import Fool.Session

/-!
# Carrying out a command

A command needs files alone, which `Files` gives it; everything else it does is in its report. Programs for the
machine are shown with the values printed and the value left, one per line.
-/

namespace Fool

/-- Access to files. A refusal is given as its text. -/
structure Files (m : Type → Type) where
  read : String → m (Except String String)
  write : String → String → m (Except String Unit)

namespace Command

/-- The name and the number of this version. -/
def versionText : String := "foolc 0.1.0\n"

/-- How the command line is used. -/
def usageText : String := "Usage: foolc <compile|run|check|exec> <FILE> [OPTIONS]\n"

/-- The session for a command. -/
def session (args : MachineArgs) : Session :=
  .ofOptions ((CompileOptions.standard.withMemorySize (args.memorySize.getD defaultMemorySize)).withStepLimit
    args.stepLimit)

/-- The printed values and the value left, one per line. -/
def valueLines (output : List Int64) (value : Option Int64) : String :=
  String.join ((output ++ value.toList).map fun v => Text.ofInt64 v ++ "\n")

/-- A source file that cannot be read. -/
def unreadable (file why : String) : Failure := ⟨"failed to read " ++ file ++ ": " ++ why, [why]⟩

/-- Faults in the use of names: their number, then each on a line of its own. -/
def bindText (errors : List BindError) : String := BindError.summary errors ++ "\n" ++ BindError.lines errors

/-- What stands behind a fault of the machine: itself, and what made loading fail. -/
def machineCauses (e : MachineError) : List String :=
  match e with
  | .load fault => [e.message, fault.message]
  | _ => [e.message]

/-- What stands behind a fault of compilation. A fault in the text is its own cause. -/
def compileCauses (e : CompileError) : List String :=
  match e with
  | .parse _ => [e.message, e.message]
  | .bind errors => [bindText errors]
  | .codegen _ => [e.message]
  | .machine fault => machineCauses fault

variable {m : Type → Type} [Monad m] (files : Files m)

/-- Compiles a file to assembly. -/
def performCompile (file : String) (output : Option String) (args : MachineArgs) : m Report := do
  match ← files.read file with
  | .error why => return .failure (unreadable file why)
  | .ok source =>
    match ((Session.assemble source).run (session args)).1 with
    | .error e => return .failure ⟨"compiling " ++ file, compileCauses e⟩
    | .ok assembly =>
      match output with
      | none => return .success assembly.text
      | some path =>
        match ← files.write path assembly.text with
        | .ok () => return .success ""
        | .error why => return .failure ⟨"writing " ++ path, [why]⟩

/-- Compiles a file and runs it. -/
def performRun (file : String) (emitAsm : Bool) (args : MachineArgs) : m Report := do
  match ← files.read file with
  | .error why => return .failure (unreadable file why)
  | .ok source =>
    let (code, s) := (Session.compile source).run (session args)
    match code with
    | .error e => return .failure ⟨"compiling " ++ file, compileCauses e⟩
    | .ok code =>
      let assembly : Assembly := ⟨some s.options.machine.memorySize, code⟩
      let report : Report := match s.execute code with
        | .error e => .failure ⟨"running " ++ file, compileCauses e⟩
        | .ok outcome => .success (valueLines outcome.output outcome.value)
      return if emitAsm then report.afterStderr assembly.text else report

/-- Checks a file without generating code. -/
def performCheck (file : String) : m Report := do
  match ← files.read file with
  | .error why => return .failure (unreadable file why)
  | .ok source =>
    let (p, s) := (Session.parse source).run (.ofOptions .standard)
    match p with
    | .error e => return .failure ⟨e.message, [e.message]⟩
    | .ok p =>
      let bindings := s.bind p
      if bindings.errors.isEmpty then
        return .success (file ++ ": ok (" ++ toString bindings.resolutions.count ++ " names resolved)\n")
      else
        return .failure ⟨bindText bindings.errors, []⟩

/-- Runs an assembly file. -/
def performExec (file : String) (args : MachineArgs) : m Report := do
  match ← files.read file with
  | .error why => return .failure ⟨"reading " ++ file, [why]⟩
  | .ok text =>
    match Assembly.read text with
    | .error e => return .failure ⟨"assembling " ++ file, [e.message]⟩
    | .ok assembly =>
      match assembly.memorySizeFor args.memorySize with
      | .error e => return .failure ⟨"checking " ++ file, [e.message]⟩
      | .ok size =>
        match Fool.execute assembly.instructions ⟨size, args.stepLimit⟩ with
        | .error e => return .failure ⟨"running " ++ file, machineCauses e⟩
        | .ok machine => return .success (valueLines machine.output.toList machine.top?)

/-- Carries out a command. -/
def perform : Command → m Report
  | compile file output args => performCompile files file output args
  | run file emitAsm args => performRun files file emitAsm args
  | check file => performCheck files file
  | exec file args => performExec files file args

end Command

/-- Answers a command line. -/
def Request.answer {m : Type → Type} [Monad m] (files : Files m) : Request → m Report
  | command c => c.perform files
  | version => return .success Command.versionText
  | misuse => return .misuse Command.usageText

end Fool
