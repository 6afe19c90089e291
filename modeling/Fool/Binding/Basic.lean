import Fool.Binding.Decls

/-!
# Binding a program

`Program.bind` gives what every reference of a program means, the classes of the program, and all faults in the use
of names in the order in which they were found.
-/

namespace Fool

/-- What binding finds out. -/
structure Bindings where
  resolutions : Resolutions
  classes : ClassTable
  errors : List BindError

/-- Nothing has been found out. -/
def Bindings.empty : Bindings := ⟨.blank 0, .empty, []⟩

namespace Program

/-- Binds the declarations and the body inside the global scope. No path of declarations without a cycle is longer
than there are declarations. -/
def bindGlobals (p : Program) (names : Names) : BindM Unit := do
  let _ ← Binder.inScope (.empty .global) do
    p.declarations.forM (Binder.decl p.arena names (p.arena.decls.size + 1))
    Binder.whole p.arena names p.body

/-- Binds a program. -/
def bind (p : Program) (names : Names) : Bindings :=
  let b := (p.bindGlobals names (.start p.arena.nodes.size)).2
  ⟨b.resolutions, b.classes, b.errors⟩

end Program

end Fool
