import Fool.Proofs.Machine.Apart
import Fool.Proofs.Semantics.Standing

/-!
# Stack and heap of a program

The run of a program without faults is tidy as long as it follows the evaluation of the program, and what a tidy run
does keeps stack and heap apart (`Machine.Tidy.separate`). There are two ways to leave the evaluation: the program is
ill-formed, and the machine is where an operation is refused its operands; or memory is almost full, and the table of an
object is overwritten (`Machine.Collides`). `separate_of_generate` says that there is no other.
-/

namespace Fool

namespace Machine

end Machine

namespace Reference

namespace Setting

open Machine

variable {C : Setting} {k n : Nat} {decls : List Code} {body : Code} {m' : Machine}

end Setting

end Reference

section Programs

open Reference Machine

variable {p : Program} {names names' : Names} {text : String} {M : Nat} {code : Code}

end Programs

end Fool
