import Fool.Proofs.Assembly.Agree
import Fool.Proofs.Renaming.Binding
import Fool.Proofs.Renaming.Parse

/-!
# Sessions that have met names before

Code does not depend on symbols: a renamed program with renamed resolutions has the same code (`generate_rename`).
With `Program.parse_behind` and `Program.bind_rename` this gives that what a session answers about a text does not
depend on the names that it has met (`Session.compile_names`), and so not on the calls made on it before
(`Session.answers_fresh`).
-/

namespace Fool

variable (f : Symbol → Symbol)

/-! ## Code -/

namespace Generator

variable (arena : Arena) (resolutions : Resolutions) (frameBase : Int64)

theorem frameCode_rename (r : Resolution) : frameCode frameBase (r.rename f) = frameCode frameBase r := rfl

theorem targetCode_rename (r : Resolution) : targetCode frameBase (r.rename f) = targetCode frameBase r := rfl

theorem resolution_rename (e : ExprRef) :
    resolution (resolutions.rename f) e = Resolution.rename f <$> resolution resolutions e := by
  unfold resolution
  rw [Resolutions.get?_rename]
  cases resolutions.get? e <;> rfl

theorem headCode_rename (operand : ExprRef → GenM Code) (first : ExprRef) :
    headCode (arena.rename f) operand first = headCode arena operand first := by
  unfold headCode
  rw [Arena.expr?_rename]
  cases arena.expr? first with
  | none => rfl
  | some x => cases x <;> rfl

theorem chainCode_rename (operand : ExprRef → GenM Code) (e : ExprRef) :
    chainCode (arena.rename f) operand e = chainCode arena operand e := by
  simp only [chainCode, Arena.leftSpine_rename, headCode_rename]

theorem exprCode_rename (n : Nat) :
    exprCode (arena.rename f) (resolutions.rename f) frameBase n = exprCode arena resolutions frameBase n := by
  induction n with
  | zero => rfl
  | succ n ih =>
    funext e
    simp only [exprCode, Arena.expr?_rename, ih, chainCode_rename, resolution_rename]
    cases arena.expr? e with
    | none => rfl
    | some x =>
      cases x with
      | methodCall x m args =>
        simp only [Option.map_some, Expr.rename, bind_map_left, frameCode_rename]
        congr 1
        funext r
        simp only [Resolution.rename]
        cases r.method <;> rfl
      | _ => simp only [Option.map_some, Expr.rename, bind_map_left, frameCode_rename, targetCode_rename] <;> rfl

theorem functionUnit_rename (localCode : DeclRef → GenM Code) (entry : String) (g : Function) :
    functionUnit (arena.rename f) (resolutions.rename f) frameBase localCode entry (g.rename f) =
      functionUnit arena resolutions frameBase localCode entry g := by
  simp only [functionUnit, wholeCode, exprCode_rename, Function.rename, List.map_map, Function.comp_def]

theorem addFunction_rename (localCode : DeclRef → GenM Code) (g : Function) :
    addFunction (arena.rename f) (resolutions.rename f) frameBase localCode (g.rename f) =
      addFunction arena resolutions frameBase localCode g := by
  simp only [addFunction, functionUnit_rename]

theorem methodTable_rename (localCode : DeclRef → GenM Code) (c : Class) :
    methodTable (arena.rename f) (resolutions.rename f) frameBase localCode (c.rename f) =
      methodTable arena resolutions frameBase localCode c := by
  simp only [methodTable, Class.rename, List.mapM_map, Function.comp_def, addFunction_rename]

theorem declCode_rename (n : Nat) :
    declCode (arena.rename f) (resolutions.rename f) frameBase n = declCode arena resolutions frameBase n := by
  induction n with
  | zero => rfl
  | succ n ih =>
    funext d
    simp only [declCode, Arena.decl?_rename, ih]
    cases arena.decl? d with
    | none => rfl
    | some x =>
      cases x with
      | varDecl v => simp only [Option.map_some, Decl.rename, wholeCode, exprCode_rename, Variable.rename]
      | funDecl g => simp only [Option.map_some, Decl.rename, addFunction_rename]
      | classDecl c => simp only [Option.map_some, Decl.rename, methodTable_rename]

end Generator

/-- A renamed program has the code of the program. -/
theorem Program.generate_rename (p : Program) (b : Bindings) (frameBase : Int64) :
    (p.rename f).generate (b.rename f) frameBase = p.generate b frameBase := by
  simp only [generate, mainCode, rename, Bindings.rename, Arena.size_decls_rename, Generator.declCode_rename,
    Generator.wholeCode, Generator.exprCode_rename]
  rfl

/-! ## Sessions -/

namespace Session

theorem compileProgram_rename {f : Symbol → Symbol} {names' names : Names} (hf : Function.Injective f)
    (ht : ∀ s, names'.text (f s) = names.text s) (o : CompileOptions) (p : Program) :
    compileProgram ⟨names', o⟩ (p.rename f) = compileProgram ⟨names, o⟩ p := by
  simp only [compileProgram, bind, Program.bind_rename hf ht, Program.generate_rename]
  rfl

/-- The names met before do not change what a text is compiled to. -/
theorem compile_names (names : Names) (o : CompileOptions) (text : String) :
    ((compile text).run ⟨names, o⟩).1 = ((compile text).run (ofOptions o)).1 := by
  have hf : Function.Injective (Names.renumber names (Program.namesOf text)) :=
    Names.renumber_injective (Program.namesOf_distinct text)
  have ht := Names.text_renumber names (Program.namesOf text)
  rw [compile_run, compile_run, ofOptions, Program.parse_behind text names]
  rcases hparse : Program.parse text .empty with ⟨e | p, t⟩
  · rfl
  · rw [Program.namesOf, hparse] at hf ht ⊢
    exact compileProgram_rename hf ht o p

/-! ## Calls on a session -/

/-- What is asked of a session. -/
inductive Call where
  | parse (text : String)
  | bind (p : Program)
  | compile (text : String)
  | compileProgram (p : Program)
  | assemble (text : String)
  | run (text : String)
  | execute (code : Code)
  | intern (name : String)

/-- The session behind a call, whether it has succeeded or not. Programs are bound and compiled, and code is executed,
without a change. -/
def behind (s : Session) : Call → Session
  | .parse text => ((parse text).run s).2
  | .bind _ | .compileProgram _ | .execute _ => s
  | .compile text => ((compile text).run s).2
  | .assemble text => ((assemble text).run s).2
  | .run text => ((run text).run s).2
  | .intern name => { s with names := (s.names.intern name).2 }

/-- The session behind several calls. -/
def behindAll (s : Session) (calls : List Call) : Session := calls.foldl behind s

theorem options_behind (s : Session) (call : Call) : (s.behind call).options = s.options := by
  cases call with
  | compile text => exact compile_options text s
  | assemble text => exact compile_options text s
  | run text => exact compile_options text s
  | parse => rfl
  | bind => rfl
  | compileProgram => rfl
  | execute => rfl
  | intern => rfl

theorem options_behindAll (s : Session) (calls : List Call) : (s.behindAll calls).options = s.options := by
  induction calls generalizing s with
  | nil => rfl
  | cons call calls ih => exact (ih (s.behind call)).trans (options_behind s call)

/-- **Sessions leak nothing from one text to the next.** Whatever has been asked of a session, it compiles, assembles
and runs a text with the same answer as a new session with its options. -/
theorem answers_fresh (o : CompileOptions) (calls : List Call) (text : String) :
    let s := (ofOptions o).behindAll calls
    ((compile text).run s).1 = ((compile text).run (ofOptions o)).1 ∧
    ((assemble text).run s).1 = ((assemble text).run (ofOptions o)).1 ∧
    ((run text).run s).1 = ((run text).run (ofOptions o)).1 := by
  intro s
  have hoptions : s.options = o := options_behindAll (ofOptions o) calls
  have hcompile : ((compile text).run s).1 = ((compile text).run (ofOptions o)).1 := hoptions ▸ compile_names s.names _ text
  refine ⟨hcompile, ?_, ?_⟩
  · rw [run_assemble, run_assemble, hcompile, hoptions]
    rfl
  · rw [run_run, run_run, hcompile, hoptions]
    rfl

end Session

end Fool
