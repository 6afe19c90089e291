import Fool.Command.Perform
import Fool.Proofs.Assembly.RoundTrip
import Fool.Proofs.Machine.Load
import Fool.Proofs.Machine.Steady

/-!
# The ways to run a program agree

A program can be compiled and run at once, or its assembly can be written, read back and run. Both ways have the same
outcome (`run_agrees`): what is written reads back and can be loaded (`Session.compiled_closed`, `Assembly.read_text`),
and the drivers, which get the value left in two ways, agree on it (`Session.execute_eq`).
-/

namespace Fool

/-! ## One program -/

namespace Session

variable {text : String} {s : Session} {code : Code}

/-- What compiling does: the names that the program brings are kept. -/
theorem compile_run (text : String) (s : Session) : (compile text).run s =
    match Program.parse text s.names with
    | (.error e, names) => (.error (.parse e), { s with names })
    | (.ok p, names) => (compileProgram { s with names } p, { s with names }) := by
  rcases hparse : Program.parse text s.names with ⟨e | p, names⟩
  · simp only [compile, parse, StateT.run, Bind.bind, StateT.bind, modifyGet, MonadStateOf.modifyGet, StateT.modifyGet,
      hparse]
    rfl
  · simp only [compile, parse, StateT.run, Bind.bind, StateT.bind, modifyGet, MonadStateOf.modifyGet, StateT.modifyGet,
      hparse]
    rfl

/-- Compiling changes the names alone. -/
theorem compile_options (text : String) (s : Session) : ((compile text).run s).2.options = s.options := by
  rw [compile_run]
  rcases Program.parse text s.names with ⟨e | p, names⟩ <;> rfl

/-- The labels of a compiled program are in order. -/
theorem compiled_closed (h : ((compile text).run s).1 = .ok code) : code.Closed := by
  rw [compile_run] at h
  rcases hparse : Program.parse text s.names with ⟨e | p, names⟩
  · rw [hparse] at h
    cases h
  · rw [hparse] at h
    dsimp only at h
    unfold compileProgram at h
    by_cases herrors : (bind { s with names } p).errors.isEmpty
    · simp only [herrors, if_true] at h
      cases hgen : p.generate (bind { s with names } p) s.options.frameBase with
      | error e =>
        simp only [hgen] at h
        cases h
      | ok code' =>
        simp only [hgen] at h
        cases h
        exact closed_of_generate hgen
    · simp only [herrors] at h
      cases h

/-- The outcome of a run of the machine. -/
def outcome : Except MachineError Machine → Except CompileError Outcome
  | .ok m => .ok ⟨m.top?, m.output.toList, m.steps⟩
  | .error e => .error (.machine e)

/-- A session runs code as the machine does. -/
theorem execute_eq (s : Session) (code : Code) : s.execute code = outcome (Fool.execute code s.options.machine) := by
  unfold execute Fool.execute
  cases hload : Image.load code with
  | error e => rfl
  | ok image =>
    have hlike := Machine.like_run (Machine.start image s.options.machine)
    rcases hrun : (Machine.start image s.options.machine).run with ⟨e | v, m⟩
    · simp only [hrun]
      rfl
    · rw [hrun] at hlike
      have hsize : m.memory.size = m.options.memorySize := by
        rw [hlike.size, hlike.options]
        exact Array.size_replicate
      have hvalue : v = m.top? := (Machine.value_of_run hrun).trans (Machine.value?_eq_top? hsize)
      simp only [hrun, hvalue]
      rfl

theorem run_assemble (text : String) (s : Session) : ((assemble text).run s).1 =
    ((compile text).run s).1.map fun code => ⟨some s.options.machine.memorySize, code⟩ := by
  have hoptions := compile_options text s
  show ((compile text).run s).1.map 
    (fun code => (⟨some ((compile text).run s).2.options.machine.memorySize, code⟩ : Assembly)) = _
  rw [hoptions]

theorem run_run (text : String) (s : Session) :
    ((run text).run s).1 = ((compile text).run s).1.bind fun code => outcome (Fool.execute code s.options.machine) := by
  have hoptions := compile_options text s
  show ((compile text).run s).1.bind ((compile text).run s).2.execute = _
  cases ((compile text).run s).1 with
  | error e => rfl
  | ok code =>
    show ((compile text).run s).2.execute code = outcome (Fool.execute code s.options.machine)
    rw [execute_eq, hoptions]

theorem compile_error_of_assemble {e : CompileError} (h : ((assemble text).run s).1 = .error e) :
    ((compile text).run s).1 = .error e := by
  rw [run_assemble] at h
  cases hcompile : ((compile text).run s).1 with
  | error e' =>
    rw [hcompile] at h
    cases h
    rfl
  | ok code =>
    rw [hcompile] at h
    cases h

/-- The size of memory that is recorded is taken whether it is asked for or not. -/
theorem memorySizeFor_recorded {n : Nat} {requested : Option Nat} (h : requested = none ∨ requested = some n) :
    Assembly.memorySizeFor ⟨some n, code⟩ requested = .ok n := by
  rcases h with rfl | rfl
  · rfl
  · exact if_pos rfl

/-- What is written reads back and can be loaded, and running it is running the program. -/
theorem written {a : Assembly} (h : ((assemble text).run s).1 = .ok a)
    (hsize : s.options.machine.memorySize < UInt64.size) :
    Assembly.read a.text = .ok a ∧ (∃ image, Image.load a.instructions = .ok image) ∧
      a.memorySize = some s.options.machine.memorySize ∧ ((compile text).run s).1 = .ok a.instructions ∧
      ((run text).run s).1 = outcome (Fool.execute a.instructions s.options.machine) := by
  have hrun := run_run text s
  rw [run_assemble] at h
  cases hcompile : ((compile text).run s).1 with
  | error e =>
    rw [hcompile] at h
    cases h
  | ok code =>
    rw [hcompile] at h hrun
    cases h
    have hclosed := compiled_closed hcompile
    obtain ⟨image, himage, -⟩ := Image.load_ok hclosed
    have hread : Assembly.read (⟨some s.options.machine.memorySize, code⟩ : Assembly).text =
        .ok ⟨some s.options.machine.memorySize, code⟩ := by
      refine Assembly.read_text (Assembly.writable_of_closed hclosed) fun n hn => ?_
      cases hn
      exact Nat.le_pred_of_lt hsize
    exact ⟨hread, ⟨image, himage⟩, rfl, rfl, hrun⟩

end Session

/-! ## Two commands -/

/-- What is written to the file can be written, and is what is read from it then. -/
structure Files.Keeps {σ : Type} (files : Files (StateM σ)) (path : String) : Prop where
  accepts : ∀ text w, ((files.write path text).run w).1 = .ok ()
  gives : ∀ text w, ((files.read path).run ((files.write path text).run w).2).1 = .ok text

/-- Files that are kept as texts by their paths. -/
def Files.stored : Files (StateM (String → Option String)) where
  read path := fun w => (match w path with
    | some text => .ok text
    | none => .error "no such file", w)
  write path text := fun w => (.ok (), fun p => if p = path then some text else w p)

theorem Files.stored_keeps (path : String) : Files.stored.Keeps path where
  accepts _ _ := rfl
  gives text w := by simp [Files.stored, StateT.run]

namespace Command

variable {σ : Type} {files : Files (StateM σ)} {file path : String} {args : MachineArgs} {w : σ}

/-- The report of a run of compiled code. -/
def runReport (file : String) (args : MachineArgs) (code : Code) : Report :=
  match Fool.execute code ⟨args.memorySize.getD defaultMemorySize, args.stepLimit⟩ with
  | .error e => .failure ⟨"running " ++ file, machineCauses e⟩
  | .ok m => .success (valueLines m.output.toList m.top?)

/-- The session of a command has the memory and the limit that the command line asks for. -/
theorem session_machine (args : MachineArgs) :
    (session args).options.machine = ⟨args.memorySize.getD defaultMemorySize, args.stepLimit⟩ := rfl

variable {source why : String} {w' : σ} {e : CompileError} {code : Code}

theorem performRun_of_unreadable (hread : (files.read file).run w = (.error why, w')) (emitAsm : Bool) :
    (performRun files file emitAsm args).run w = (.failure (unreadable file why), w') := by
  have hread : files.read file w = (.error why, w') := hread
  simp only [performRun, StateT.run, Bind.bind, StateT.bind, hread]
  rfl

theorem performRun_of_error (hread : (files.read file).run w = (.ok source, w'))
    (hcompile : ((Session.compile source).run (session args)).1 = .error e) (emitAsm : Bool) :
    (performRun files file emitAsm args).run w = (.failure ⟨"compiling " ++ file, compileCauses e⟩, w') := by
  have hread : files.read file w = (.ok source, w') := hread
  rcases hrun : Session.compile source (session args) with ⟨answer, s⟩
  have hcompile : answer = .error e := by rw [← hcompile]; exact (congrArg Prod.fst hrun).symm
  simp only [performRun, StateT.run, Bind.bind, StateT.bind, hread, hrun, hcompile]
  rfl

/-- A run of code is reported as the machine leaves it, and in front of the second output the assembly may stand. -/
theorem performRun_of_code (hread : (files.read file).run w = (.ok source, w'))
    (hcompile : ((Session.compile source).run (session args)).1 = .ok code) (emitAsm : Bool) :
    ∃ stderr, (performRun files file emitAsm args).run w = ({ runReport file args code with stderr }, w') := by
  have hread : files.read file w = (.ok source, w') := hread
  have hoptions := Session.compile_options source (session args)
  rcases hrun : Session.compile source (session args) with ⟨answer, s⟩
  have hcompile : answer = .ok code := by rw [← hcompile]; exact (congrArg Prod.fst hrun).symm
  have hoptions : s.options = (session args).options := by rw [← hoptions]; exact (congrArg (·.2.options) hrun).symm
  simp only [performRun, StateT.run, Bind.bind, StateT.bind, hread, hrun, hcompile]
  rw [Session.execute_eq, hoptions, session_machine]
  unfold runReport
  cases Fool.execute code ⟨args.memorySize.getD defaultMemorySize, args.stepLimit⟩ <;> cases emitAsm <;> exact ⟨_, rfl⟩

theorem performCompile_of_unreadable (hread : (files.read file).run w = (.error why, w')) (output : Option String) :
    (performCompile files file output args).run w = (.failure (unreadable file why), w') := by
  have hread : files.read file w = (.error why, w') := hread
  simp only [performCompile, StateT.run, Bind.bind, StateT.bind, hread]
  rfl

theorem performCompile_of_error (hread : (files.read file).run w = (.ok source, w'))
    (hassemble : ((Session.assemble source).run (session args)).1 = .error e) (output : Option String) :
    (performCompile files file output args).run w = (.failure ⟨"compiling " ++ file, compileCauses e⟩, w') := by
  have hread : files.read file w = (.ok source, w') := hread
  have hassemble : (Session.assemble source (session args)).1 = .error e := hassemble
  simp only [performCompile, StateT.run, Bind.bind, StateT.bind, hread, hassemble]
  rfl

/-- Compiling to a file writes the assembly. -/
theorem performCompile_of_assembly {a : Assembly} (hkeeps : files.Keeps path)
    (hread : (files.read file).run w = (.ok source, w'))
    (hassemble : ((Session.assemble source).run (session args)).1 = .ok a) :
    (performCompile files file (some path) args).run w = (.success "", ((files.write path a.text).run w').2) := by
  have hread : files.read file w = (.ok source, w') := hread
  have hassemble : (Session.assemble source (session args)).1 = .ok a := hassemble
  rcases hwrite : files.write path a.text w' with ⟨answer, w''⟩
  have hanswer : answer = .ok () := by rw [← hkeeps.accepts a.text w']; exact (congrArg Prod.fst hwrite).symm
  simp only [performCompile, StateT.run, Bind.bind, StateT.bind, hread, hassemble, hwrite, hanswer]
  rfl

/-- Running what was written reports the same as running the code. -/
theorem performExec_of_written {a : Assembly} {n : Nat} (hkeeps : files.Keeps path) (hread : Assembly.read a.text = .ok a)
    (hsize : a.memorySizeFor args.memorySize = .ok n) (hn : n = args.memorySize.getD defaultMemorySize) :
    ((performExec files path args).run ((files.write path a.text).run w').2).1 = runReport path args a.instructions := by
  rcases hback : files.read path (files.write path a.text w').2 with ⟨answer, w''⟩
  have hanswer : answer = .ok a.text := by
    rw [← hkeeps.gives a.text w']
    exact (congrArg Prod.fst hback).symm
  simp only [performExec, StateT.run, Bind.bind, StateT.bind, hback, hanswer, hread, hsize, hn]
  unfold runReport
  cases Fool.execute a.instructions ⟨args.memorySize.getD defaultMemorySize, args.stepLimit⟩ <;> rfl

theorem runReport_stdout (file path : String) (args : MachineArgs) (code : Code) :
    (runReport file args code).stdout = (runReport path args code).stdout ∧
      (runReport file args code).exitCode = (runReport path args code).exitCode := by
  unfold runReport
  cases Fool.execute code ⟨args.memorySize.getD defaultMemorySize, args.stepLimit⟩ <;> exact ⟨rfl, rfl⟩

/-- Running a file prints what compiling it and running the assembly prints, and fails if one of these fails. -/
theorem run_like_compile_exec (hkeeps : files.Keeps path) (hsize : ∀ n ∈ args.memorySize, n < UInt64.size)
    (emitAsm : Bool) (w : σ) :
    let direct := ((performRun files file emitAsm args).run w).1
    let compiled := (performCompile files file (some path) args).run w
    let executed := ((performExec files path args).run compiled.2).1
    direct.stdout = compiled.1.stdout ++ (if compiled.1.exitCode = 0 then executed.stdout else "") ∧
      (direct.exitCode = 0 ↔ compiled.1.exitCode = 0 ∧ executed.exitCode = 0) := by
  intro direct compiled executed
  rcases hread : (files.read file).run w with ⟨why | source, w'⟩
  · have hdirect : direct = .failure (unreadable file why) :=
      congrArg Prod.fst (performRun_of_unreadable hread emitAsm)
    have hcompiled : compiled.1 = .failure (unreadable file why) :=
      congrArg Prod.fst (performCompile_of_unreadable hread (some path))
    rw [hdirect, hcompiled]
    exact ⟨rfl, by simp [Report.failure]⟩
  · have hrecorded : (session args).options.machine.memorySize < UInt64.size := by
      rw [session_machine]
      cases hn : args.memorySize with
      | none =>
        show defaultMemorySize < UInt64.size
        decide
      | some n => exact hsize n hn
    cases hassemble : ((Session.assemble source).run (session args)).1 with
    | error e =>
      have hcompile := Session.compile_error_of_assemble hassemble
      have hdirect : direct = .failure ⟨"compiling " ++ file, compileCauses e⟩ :=
        congrArg Prod.fst (performRun_of_error hread hcompile emitAsm)
      have hcompiled : compiled.1 = .failure ⟨"compiling " ++ file, compileCauses e⟩ :=
        congrArg Prod.fst (performCompile_of_error hread hassemble (some path))
      rw [hdirect, hcompiled]
      exact ⟨rfl, by simp [Report.failure]⟩
    | ok a =>
      obtain ⟨hback, -, hmemory, hcompile, -⟩ := Session.written hassemble hrecorded
      have hfor : a.memorySizeFor args.memorySize = .ok (args.memorySize.getD defaultMemorySize) := by
        rcases a with ⟨recorded, code⟩
        cases hmemory
        refine Session.memorySizeFor_recorded ?_
        rw [session_machine]
        cases args.memorySize with
        | none => exact Or.inl rfl
        | some n => exact Or.inr rfl
      have hcompiled : compiled = (.success "", ((files.write path a.text).run w').2) :=
        performCompile_of_assembly hkeeps hread hassemble
      have hexecuted : executed = runReport path args a.instructions := by
        show ((performExec files path args).run compiled.2).1 = _
        rw [hcompiled]
        exact performExec_of_written hkeeps hback hfor rfl
      obtain ⟨stderr, hrun⟩ := performRun_of_code hread hcompile emitAsm
      have hdirect : direct = { runReport file args a.instructions with stderr } := congrArg Prod.fst hrun
      obtain ⟨hstdout, hexit⟩ := runReport_stdout file path args a.instructions
      rw [hdirect, hcompiled, hexecuted]
      simp only [Report.success, hstdout, hexit, if_true, String.empty_append, true_and, and_self]

end Command

/-- **Every way to run a program agrees.** A session that runs a program has the outcome of the machine for the
assembly of the program that is written, read back and loaded, which never fails; the size of memory may be left to
what was recorded or be asked for. So running a file prints and succeeds as compiling it to another file and running
that. -/
theorem run_agrees :
    (∀ (s : Session) (text : String), s.options.machine.memorySize < UInt64.size →
      match ((Session.assemble text).run s).1 with
      | .error e => ((Session.run text).run s).1 = .error e
      | .ok a => ∃ a' image, Assembly.read a.text = .ok a' ∧ Image.load a'.instructions = .ok image ∧
        ∀ requested, requested = none ∨ requested = some s.options.machine.memorySize →
          ∃ n, a'.memorySizeFor requested = .ok n ∧ ((Session.run text).run s).1 =
            Session.outcome (execute a'.instructions ⟨n, s.options.machine.stepLimit⟩)) ∧
    ∀ (σ : Type) (files : Files (StateM σ)) (file path : String) (emitAsm : Bool) (args : MachineArgs) (w : σ),
      files.Keeps path → (∀ n ∈ args.memorySize, n < UInt64.size) →
      let direct := ((Command.performRun files file emitAsm args).run w).1
      let compiled := (Command.performCompile files file (some path) args).run w
      let executed := ((Command.performExec files path args).run compiled.2).1
      direct.stdout = compiled.1.stdout ++ (if compiled.1.exitCode = 0 then executed.stdout else "") ∧
        (direct.exitCode = 0 ↔ compiled.1.exitCode = 0 ∧ executed.exitCode = 0) := by
  refine ⟨fun s text hsize => ?_, fun σ files file path emitAsm args w hkeeps hsize =>
    Command.run_like_compile_exec hkeeps hsize emitAsm w⟩
  cases hassemble : ((Session.assemble text).run s).1 with
  | error e =>
    rw [Session.run_run, Session.compile_error_of_assemble hassemble]
    rfl
  | ok a =>
    obtain ⟨hread, ⟨image, himage⟩, hmemory, -, hrun⟩ := Session.written hassemble hsize
    refine ⟨a, image, hread, himage, fun requested hrequested => ⟨_, ?_, hrun⟩⟩
    rcases a with ⟨recorded, code⟩
    cases hmemory
    exact Session.memorySizeFor_recorded hrequested

/-- Printing a number, and running its file. -/
theorem run_agrees_print :
    (let s := Session.ofOptions (CompileOptions.standard.withMemorySize 64);
      match ((Session.assemble "print(7);").run s).1 with
      | .error e => ((Session.run "print(7);").run s).1 = .error e
      | .ok a => ∃ a' image, Assembly.read a.text = .ok a' ∧ Image.load a'.instructions = .ok image ∧
        ∀ requested, requested = none ∨ requested = some 64 → ∃ n, a'.memorySizeFor requested = .ok n ∧
          ((Session.run "print(7);").run s).1 = Session.outcome (execute a'.instructions ⟨n, none⟩)) ∧
    let compiled := (Command.performCompile Files.stored "program" (some "code") ⟨some 64, none⟩).run
      fun _ => some "print(7);"
    let executed := ((Command.performExec Files.stored "code" ⟨some 64, none⟩).run compiled.2).1
    Files.stored.Keeps "code" ∧ (∀ n ∈ some 64, n < UInt64.size) ∧ compiled.1.exitCode = 0 ∧ executed.exitCode = 0 ∧
      compiled.1.stdout ++ executed.stdout = "7\n7\n" := by
  have hsize : ∀ n ∈ some 64, n < UInt64.size := by decide
  have hrun : ((Command.performRun Files.stored "program" false ⟨some 64, none⟩).run fun _ => some "print(7);").1 =
      .success "7\n7\n" := by decide +kernel
  obtain ⟨hsession, hcommand⟩ := run_agrees
  obtain ⟨hstdout, hexit⟩ := hcommand (String → Option String) Files.stored "program" "code" false ⟨some 64, none⟩
    (fun _ => some "print(7);") (Files.stored_keeps "code") hsize
  rw [hrun] at hstdout hexit
  obtain ⟨hcompiled, hexecuted⟩ := hexit.1 rfl
  rw [if_pos hcompiled] at hstdout
  exact ⟨hsession (Session.ofOptions (CompileOptions.standard.withMemorySize 64)) "print(7);" (by decide),
    Files.stored_keeps "code", hsize, hcompiled, hexecuted, hstdout.symm⟩

end Fool
