import Fool.Text.Decimal

/-!
# The command line

    compile FILE [-o OUT] [--memory-size CELLS] [--step-limit STEPS]
    run     FILE [--emit-asm] [--memory-size CELLS] [--step-limit STEPS]
    check   FILE
    exec    FILE [--memory-size CELLS] [--step-limit STEPS]

Options may stand before or behind the file, each at most once; the value of an option is the next argument, or
stands behind `=`, or directly behind a short option. Behind `--` nothing is an option.
-/

namespace Fool

/-- What the command line says about the machine. -/
structure MachineArgs where
  memorySize : Option Nat
  stepLimit : Option Nat
deriving DecidableEq, Repr

/-- What is to be done. -/
inductive Command where
  | compile (file : String) (output : Option String) (machine : MachineArgs)
  | run (file : String) (emitAsm : Bool) (machine : MachineArgs)
  | check (file : String)
  | exec (file : String) (machine : MachineArgs)
deriving DecidableEq, Repr

/-- What a command line asks for. -/
inductive Request where
  | command (c : Command)
  | version
  /-- The command line cannot be read. -/
  | misuse
deriving DecidableEq, Repr

namespace Command

/-- The options of the commands. -/
inductive Flag where
  | output | emitAsm | memorySize | stepLimit
deriving DecidableEq, Repr

/-- The option with this name. -/
def Flag.ofName? : String → Option Flag
  | "-o" | "--output" => some .output
  | "--emit-asm" => some .emitAsm
  | "--memory-size" => some .memorySize
  | "--step-limit" => some .stepLimit
  | _ => none

/-- How a single argument reads. -/
inductive Word where
  | value (text : String)
  | flag (name : String) (attached : Option String)
  /-- No option follows. -/
  | endOfFlags
deriving DecidableEq, Repr

/-- Reads a single argument. A lone hyphen is a value. -/
def Word.ofString (arg : String) : Word :=
  match arg.toList with
  | ['-', '-'] => .endOfFlags
  | '-' :: '-' :: cs =>
    let name := "--" ++ String.ofList (cs.takeWhile (· != '='))
    match cs.dropWhile (· != '=') with
    | [] => .flag name none
    | _ :: attached => .flag name (some (String.ofList attached))
  | '-' :: c :: cs =>
    let name := "-" ++ String.singleton c
    match cs with
    | [] => .flag name none
    | '=' :: attached => .flag name (some (String.ofList attached))
    | _ => .flag name (some (String.ofList cs))
  | _ => .value arg

/-- What has been read of the arguments of a command. -/
structure Fields where
  file : Option String
  output : Option String
  emitAsm : Bool
  memorySize : Option Nat
  stepLimit : Option Nat
deriving DecidableEq, Repr

namespace Fields

/-- Nothing has been read. -/
def empty : Fields := ⟨none, none, false, none, none⟩

/-- A value for a field that has none yet. -/
def fill {α : Type} (field : Option α) (value : Option α) : Option α :=
  if field.isSome then none else value

/-- A path, which must not be empty. -/
def path? (value : String) : Option String := if value = "" then none else some value

/-- A number of 64 bits. -/
def number? (value : String) : Option Nat := Text.natural? (UInt64.size - 1) value.toList

/-- Takes a value that belongs to no option. -/
def addFile (f : Fields) (value : String) : Option Fields :=
  (fill f.file (path? value)).map fun v => { f with file := some v }

/-- Takes the value of an option. -/
def addValue (f : Fields) (flag : Flag) (value : String) : Option Fields :=
  match flag with
  | .output => (fill f.output (path? value)).map fun v => { f with output := some v }
  | .memorySize => (fill f.memorySize (number? value)).map fun v => { f with memorySize := some v }
  | .stepLimit => (fill f.stepLimit (number? value)).map fun v => { f with stepLimit := some v }
  | .emitAsm => none

/-- Takes the option that has no value. -/
def addSwitch (f : Fields) : Option Fields := if f.emitAsm then none else some { f with emitAsm := true }

/-- Reads the arguments of a command that has the options `allowed`. -/
def read (allowed : Flag → Bool) : List String → Fields → Option Fields
  | [], f => some f
  | arg :: args, f =>
    match Word.ofString arg with
    | .value v => (f.addFile v).bind (read allowed args)
    | .endOfFlags => args.foldlM addFile f
    | .flag name attached =>
      match (Flag.ofName? name).filter allowed with
      | none => none
      | some .emitAsm => if attached.isNone then f.addSwitch.bind (read allowed args) else none
      | some flag =>
        match attached with
        | some v => (f.addValue flag v).bind (read allowed args)
        | none =>
          match args with
          | [] => none
          | next :: args =>
            match Word.ofString next with
            | .value v => (f.addValue flag v).bind (read allowed args)
            | _ => none

/-- What the arguments say about the machine. -/
def machine (f : Fields) : MachineArgs := ⟨f.memorySize, f.stepLimit⟩

end Fields

/-- The options about the machine. -/
def machineFlags : Flag → Bool
  | .memorySize | .stepLimit => true
  | _ => false

/-- Reads the arguments of the command with this name. -/
def ofArgs? (name : String) (args : List String) : Option Command :=
  match name with
  | "compile" => do
    let f ← Fields.read (fun flag => machineFlags flag || flag == .output) args .empty
    return .compile (← f.file) f.output f.machine
  | "run" => do
    let f ← Fields.read (fun flag => machineFlags flag || flag == .emitAsm) args .empty
    return .run (← f.file) f.emitAsm f.machine
  | "check" => do
    let f ← Fields.read (fun _ => false) args .empty
    return .check (← f.file)
  | "exec" => do
    let f ← Fields.read machineFlags args .empty
    return .exec (← f.file) f.machine
  | _ => none

end Command

/-- Reads a command line. -/
def Request.ofArgs : List String → Request
  | [] => .misuse
  | name :: args =>
    match Command.Word.ofString name with
    | .flag "--version" none | .flag "-V" _ => .version
    | _ =>
      match Command.ofArgs? name args with
      | some c => .command c
      | none => .misuse

end Fool
