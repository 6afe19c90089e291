import Fool.Assembly.Reader
import Fool.Codegen.Decls
import Fool.Machine.Run
import Fool.Parse.Program

/-!
# Compiling and running programs

A `Session` takes a program from its text to code, to assembly or to the outcome of its run. It keeps the names it
has met; what it answers does not depend on them.
-/

namespace Fool

/-- Why a program gives no code or no outcome. -/
inductive CompileError where
  | parse (e : ParseError)
  | bind (errors : List BindError)
  | codegen (e : CodegenError)
  | machine (e : MachineError)
deriving DecidableEq, Repr

/-- The wording of a fault. Faults in the use of names are only counted. -/
def CompileError.message : CompileError → String
  | parse e => e.message
  | bind errors => BindError.summary errors
  | codegen e => e.message
  | machine e => e.message

/-- Where the global frame lies, and the machine to run on. The frame lies at the end of the machine's memory,
unless something else is asked for. -/
structure CompileOptions where
  frameBase : Int64
  machine : MachineOptions
deriving DecidableEq, Repr

namespace CompileOptions

/-- The usual memory and no limit. -/
def standard : CompileOptions := ⟨Int64.ofNat defaultMemorySize, .standard⟩

/-- With memory of another size, the frame at its end. -/
def withMemorySize (o : CompileOptions) (n : Nat) : CompileOptions :=
  ⟨Int64.ofNat n, { o.machine with memorySize := n }⟩

/-- With another limit of steps. -/
def withStepLimit (o : CompileOptions) (limit : Option Nat) : CompileOptions :=
  { o with machine := { o.machine with stepLimit := limit } }

end CompileOptions

/-- How a run ended that gave an answer: the value left, the values printed, the number of steps. -/
structure Outcome where
  value : Option Int64
  output : List Int64
  steps : Nat
deriving DecidableEq, Repr

/-- What is kept from one program to the next. -/
structure Session where
  names : Names
  options : CompileOptions

/-- A step of a session. -/
abbrev SessionM := StateM Session

namespace Session

/-- Without names. -/
def ofOptions (options : CompileOptions) : Session := ⟨.empty, options⟩

/-- Reads a program. -/
def parse (text : String) : SessionM (Except ParseError Program) := modifyGet fun s =>
  let (answer, names) := Program.parse text s.names
  (answer, { s with names })

/-- Binds a program that the session has read. -/
def bind (s : Session) (p : Program) : Bindings := p.bind s.names

/-- The code of a program that the session has read. -/
def compileProgram (s : Session) (p : Program) : Except CompileError Code := do
  let bindings := s.bind p
  if bindings.errors.isEmpty then
    (p.generate bindings s.options.frameBase).mapError .codegen
  else
    throw (.bind bindings.errors)

/-- The code of a program. -/
def compile (text : String) : SessionM (Except CompileError Code) := do
  match ← parse text with
  | .error e => return .error (.parse e)
  | .ok p => return (← get).compileProgram p

/-- The assembly of a program, which records the size of the session's memory. -/
def assemble (text : String) : SessionM (Except CompileError Assembly) := do
  let code ← compile text
  let size := (← get).options.machine.memorySize
  return code.map fun code => ⟨some size, code⟩

/-- Runs code on a new machine. -/
def execute (s : Session) (code : Code) : Except CompileError Outcome :=
  match Image.load code with
  | .error e => .error (.machine (.load e))
  | .ok image =>
    match (Machine.start image s.options.machine).run with
    | (.ok value, m) => .ok ⟨value, m.output.toList, m.steps⟩
    | (.error e, _) => .error (.machine e)

/-- Compiles a program and runs it. -/
def run (text : String) : SessionM (Except CompileError Outcome) := do
  let code ← compile text
  let s ← get
  return code.bind s.execute

end Session

end Fool
