import Fool.Proofs.Assembly.Agree
import Fool.Proofs.Placing.Binding
import Fool.Proofs.Placing.Parse
import Fool.Proofs.Token.Printing

/-!
# Layouts of the same tokens

Code does not depend on places: a program without places has the code of the program (`generate_unplaced`). With
`Program.parse_readings` and `Program.bind_unplaced` this gives that texts whose answers say the same have the same code,
or are refused alike (`compile_readings`). Two layouts of a list of tokens are such texts (`layout_irrelevant`).
-/

namespace Fool

/-! ## Code -/

namespace Generator

variable (arena : Arena) (resolutions : Resolutions) (frameBase : Int64)

theorem headCode_unplaced (operand : ExprRef → GenM Code) (first : ExprRef) :
    headCode arena.unplaced operand first = headCode arena operand first := by
  simp only [headCode, Arena.expr?_unplaced]

theorem chainCode_unplaced (operand : ExprRef → GenM Code) (e : ExprRef) :
    chainCode arena.unplaced operand e = chainCode arena operand e := by
  simp only [chainCode, Arena.leftSpine_unplaced, headCode_unplaced]

theorem exprCode_unplaced (n : Nat) :
    exprCode arena.unplaced resolutions frameBase n = exprCode arena resolutions frameBase n := by
  induction n with
  | zero => rfl
  | succ n ih =>
    funext e
    simp only [exprCode, Arena.expr?_unplaced, ih, chainCode_unplaced]

theorem addFunction_unplaced (localCode : DeclRef → GenM Code) (f : Function) :
    addFunction arena.unplaced resolutions frameBase localCode f.unplaced =
      addFunction arena resolutions frameBase localCode f := by
  simp only [addFunction, functionUnit, wholeCode, exprCode_unplaced, Function.unplaced, List.map_map,
    Function.comp_def]

theorem methodTable_unplaced (localCode : DeclRef → GenM Code) (c : Class) :
    methodTable arena.unplaced resolutions frameBase localCode c.unplaced =
      methodTable arena resolutions frameBase localCode c := by
  simp only [methodTable, Class.unplaced, List.mapM_map, Function.comp_def, addFunction_unplaced]

theorem declCode_unplaced (n : Nat) :
    declCode arena.unplaced resolutions frameBase n = declCode arena resolutions frameBase n := by
  induction n with
  | zero => rfl
  | succ n ih =>
    funext d
    simp only [declCode, Arena.decl?_unplaced, ih]
    cases arena.decl? d with
    | none => rfl
    | some x =>
      cases x with
      | varDecl v => simp only [Option.map_some, Decl.unplaced, wholeCode, exprCode_unplaced, Variable.unplaced]
      | funDecl f => simp only [Option.map_some, Decl.unplaced, addFunction_unplaced]
      | classDecl c => simp only [Option.map_some, Decl.unplaced, methodTable_unplaced]

end Generator

/-- A program without places has the code of the program. -/
theorem Program.generate_unplaced (p : Program) (b : Bindings) (frameBase : Int64) :
    p.unplaced.generate b.unplaced frameBase = p.generate b frameBase := by
  simp only [generate, mainCode, unplaced, Bindings.unplaced, Arena.size_decls_unplaced, Generator.declCode_unplaced,
    Generator.wholeCode, Generator.exprCode_unplaced, List.isEmpty_map, List.length_map]
  rfl

/-- The fault without places. -/
def CompileError.unplaced : CompileError → CompileError
  | .parse e => .parse ⟨e.cause, Position.start.location⟩
  | .bind errors => .bind (errors.map BindError.unplaced)
  | e => e

namespace Session

open Lexer

/-! ## Sessions -/

theorem compileProgram_unplaced (s : Session) (p : Program) :
    s.compileProgram p.unplaced = (s.compileProgram p).mapError CompileError.unplaced := by
  have hbind : s.bind p.unplaced = (s.bind p).unplaced := Program.bind_unplaced p s.names
  have hempty : (s.bind p).unplaced.errors.isEmpty = (s.bind p).errors.isEmpty := List.isEmpty_map
  unfold compileProgram
  dsimp only
  rw [hbind, Program.generate_unplaced]
  by_cases herrors : (s.bind p).errors.isEmpty
  · rw [if_pos (hempty.trans herrors), if_pos herrors]
    cases p.generate (s.bind p) s.options.frameBase <;> rfl
  · rw [if_neg (hempty ▸ herrors), if_neg herrors]
    rfl

/-- **Texts whose answers say the same have the same code**, or are refused alike. -/
theorem compile_readings {text text' : String} (s : Session)
    (h : (Cursor.ofString text).readAll.map reading = (Cursor.ofString text').readAll.map reading) :
    ((compile text).run s).1.mapError CompileError.unplaced = ((compile text').run s).1.mapError CompileError.unplaced := by
  obtain ⟨htree, hnames⟩ := Program.parse_readings s.names h
  rw [compile_run, compile_run]
  generalize Program.parse text s.names = answer, Program.parse text' s.names = answer' at htree hnames
  obtain ⟨e | p, names⟩ := answer <;> obtain ⟨e' | p', names'⟩ := answer'
  · exact congrArg (fun cause => Except.error (CompileError.parse ⟨cause, Position.start.location⟩)) (Except.error.inj htree)
  · cases htree
  · cases htree
  · obtain rfl : names = names' := hnames
    dsimp only
    rw [← compileProgram_unplaced, ← compileProgram_unplaced]
    exact congrArg _ (Except.ok.inj htree)

/-- **The layout of a program does not matter.** However a list of tokens is printed with white space and comments between
them, the lexer reads these tokens, without a fault. And in any two layouts they are read as the same tree up to places,
with the same names, and compiled to the same code; or they are refused alike. -/
theorem layout_irrelevant {kinds : List TokenKind} {text : String} (h : Layout kinds text.toList) :
    (Cursor.ofString text).readAll.map reading = kinds.map .ok ++ [.ok .endOfInput] ∧
    ∀ text' : String, Layout kinds text'.toList →
      (∀ names : Names,
        ((Program.parse text names).1.map Program.unplaced).mapError ParseError.cause =
            ((Program.parse text' names).1.map Program.unplaced).mapError ParseError.cause ∧
          (Program.parse text names).2 = (Program.parse text' names).2) ∧
      ∀ s : Session, ((compile text).run s).1.mapError CompileError.unplaced =
        ((compile text').run s).1.mapError CompileError.unplaced := by
  refine ⟨Cursor.readings_layout h, fun text' h' => ?_⟩
  have hreadings := (Cursor.readings_layout h).trans (Cursor.readings_layout h').symm
  exact ⟨fun names => Program.parse_readings names hreadings, fun s => compile_readings s hreadings⟩

/-- A division between two comments, and between blanks: both are compiled, to the same code. -/
theorem layout_irrelevant_division :
    Layout [.number 7, .mark .divide, .number 2, .mark .semicolon] "7/*x*///***/2\n;".toList ∧
    Layout [.number 7, .mark .divide, .number 2, .mark .semicolon] "7 / 2 ;".toList ∧
    (Cursor.ofString "7/*x*///***/2\n;").readAll.map reading =
      [.ok (.number 7), .ok (.mark .divide), .ok (.number 2), .ok (.mark .semicolon), .ok .endOfInput] ∧
    ((compile "7/*x*///***/2\n;").run (ofOptions .standard)).1.mapError CompileError.unplaced =
      ((compile "7 / 2 ;").run (ofOptions .standard)).1.mapError CompileError.unplaced ∧
    ((compile "7 / 2 ;").run (ofOptions .standard)).1.isOk = true := by
  have hseven : Printable (.number 7) := show 0 ≤ (7 : Int64).toInt by decide
  have htwo : Printable (.number 2) := show 0 ≤ (2 : Int64).toInt by decide
  have hblank : Separator [' '] := .blank rfl .nil
  have hcomment : Separator (commentText ['x'] ++ []) := .comment (by decide) .nil
  have hstar : Separator (commentText ['*'] ++ []) := .comment (by decide) .nil
  have hcommented : Layout [.number 7, .mark .divide, .number 2, .mark .semicolon] "7/*x*///***/2\n;".toList :=
    ⟨[], _, .nil, .cons hseven hcomment nofun (.cons trivial hstar nofun (.cons htwo (.blank (c := '\n') rfl .nil) nofun
      (.cons trivial .nil (fun _ => rfl) .nil))), by decide +kernel⟩
  have hspaced : Layout [.number 7, .mark .divide, .number 2, .mark .semicolon] "7 / 2 ;".toList :=
    ⟨[], _, .nil, .cons hseven hblank nofun (.cons trivial hblank nofun (.cons htwo hblank nofun
      (.cons trivial .nil (fun _ => rfl) .nil))), by decide +kernel⟩
  exact ⟨hcommented, hspaced, (layout_irrelevant hcommented).1, ((layout_irrelevant hcommented).2 _ hspaced).2 _,
    by decide +kernel⟩

end Session

end Fool
