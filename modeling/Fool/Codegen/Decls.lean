import Fool.Codegen.Exprs

/-!
# Code for declarations and programs

The code of a declaration leaves one value on the stack: the value of a variable, the entry of a function, the
address of the table of methods of a class. The program comes first and ends in `halt`; the units of the functions
and methods follow it.
-/

namespace Fool

namespace Generator

variable (arena : Arena) (resolutions : Resolutions) (frameBase : Int64)

/-- The code of an expression that no other contains. -/
def wholeCode (e : ExprRef) : GenM Code := exprCode arena resolutions frameBase maxNesting e

/-- The unit of a function: the frame is opened, the local declarations and the body are evaluated, and everything
but the value is taken off the stack again. -/
def functionUnit (localCode : DeclRef → GenM Code) (entry : String) (f : Function) : GenM Code := do
  let locals ← f.locals.mapM localCode
  let body ← wholeCode arena resolutions frameBase f.body
  return [.label entry, .copyFp, .load .ra] ++ locals.flatten ++ body ++ [.store .tm]
    ++ (f.locals.map fun _ => Instruction.pop) ++ [.store .ra, .pop] ++ (f.params.map fun _ => Instruction.pop)
    ++ [.store .fp, .load .tm, .load .ra, .jumpSub]

/-- Adds the unit of a function and gives its entry. -/
def addFunction (localCode : DeclRef → GenM Code) (f : Function) : GenM String := do
  let entry ← freshFunction
  let unit ← functionUnit arena resolutions frameBase localCode entry f
  addUnit unit
  return entry

/-- The table of methods of a class, written to the heap entry by entry. -/
def methodTable (localCode : DeclRef → GenM Code) (c : Class) : GenM Code := do
  setInClass true
  let entries ← c.methods.mapM (addFunction arena resolutions frameBase localCode)
  setInClass false
  return .load .hp :: (entries.map fun l => .pushLabel l :: Code.pushToHeap).flatten

/-- The code of a declaration, whose local declarations may be nested as deep as the number says. -/
def declCode : Nat → DeclRef → GenM Code
  | 0, d => throw (.missingDeclaration d)
  | n + 1, d => do
    match arena.decl? d with
    | none => throw (.missingDeclaration d)
    | some (.varDecl v) => wholeCode arena resolutions frameBase v.init
    | some (.funDecl f) =>
      let entry ← addFunction arena resolutions frameBase (declCode n) f
      return [.pushLabel entry]
    | some (.classDecl c) => methodTable arena resolutions frameBase (declCode n) c

end Generator

namespace Program

/-- The main part of the code. The global frame begins with an unused cell, if anything is declared in it. -/
def mainCode (p : Program) (resolutions : Resolutions) (frameBase : Int64) : GenM Code := do
  let decls ← p.declarations.mapM (Generator.declCode p.arena resolutions frameBase (p.arena.decls.size + 1))
  let body ← Generator.wholeCode p.arena resolutions frameBase p.body
  let unused : Code := if p.declarations.isEmpty then [] else [.push 0]
  return unused ++ decls.flatten ++ body ++ [.halt]

/-- The code of a program that has been bound without a fault, for a global frame at `frameBase`. -/
def generate (p : Program) (bindings : Bindings) (frameBase : Int64) : Except CodegenError Code :=
  if bindings.errors.isEmpty then do
    let (main, g) ← (p.mainCode bindings.resolutions frameBase).run .start
    return main ++ g.units.flatten
  else
    throw (.bindingErrors bindings.errors.length)

end Program

end Fool
