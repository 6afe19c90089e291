import Fool.Proofs.Binding.Frame
import Fool.Proofs.Codegen.Shape

/-!
# The code of a program holds that of its expressions

The code of an expression holds that of each of its parts (`Coded.part`), and the code of a program that of all
declarations and bodies, in whatever functions and classes they stand (`exists_coded_of_region`). So the code of every
expression is somewhere in the code of the program (`exists_coded_of_generate`).
-/

namespace Fool

/-- What is on a walk is reached. -/
theorem Arena.below_of_mem_walkFrom {a : Arena} {n : Nat} {w e : ExprRef} (h : e ∈ a.walkFrom n w) : a.Below w e := by
  induction n generalizing w with
  | zero => cases h
  | succ n ih =>
    rw [walkFrom] at h
    rcases List.mem_cons.1 h with rfl | h
    · exact .self
    · cases hx : a.expr? w with
      | none =>
        rw [hx] at h
        cases h
      | some x =>
        rw [hx] at h
        obtain ⟨part, hp, h⟩ := List.mem_flatMap.1 h
        exact .part hx hp (ih h)

namespace Generator

section Expressions

variable {a : Arena} {t : Resolutions} {frameBase : Int64} {inClass : Bool} {e e' : ExprRef} {x : Expr} {op : Operator}
variable {code right tail : Code}

theorem Tail.infix (h : Tail op right tail) : right <:+: tail := by
  cases h with
  | arith => exact ⟨[], _, rfl⟩
  | comparison => exact ⟨[], _, rfl⟩
  | or => exact ⟨_, _, rfl⟩

/-- One of several parts that follow each other. -/
theorem exists_coded_of_mem {args : List ExprRef} {codes : List Code}
    (h : List.Forall₂ (Coded a t frameBase inClass) args codes) (hp : e' ∈ args) :
    ∃ code', Coded a t frameBase inClass e' code' ∧ code' <:+: codes.flatten := by
  induction h with
  | nil => cases hp
  | @cons _ first args codes hcode _ ih =>
    rcases List.mem_cons.1 hp with rfl | hp
    · exact ⟨first, hcode, List.infix_of_mem_flatten List.mem_cons_self⟩
    · obtain ⟨code', hcode', hinfix⟩ := ih hp
      exact ⟨code', hcode', hinfix.trans ⟨first, [], by simp⟩⟩

/-- **The code of an expression holds the code of its parts.** -/
theorem Coded.part (h : Coded a t frameBase inClass e code) (hx : a.expr? e = some x) (hp : e' ∈ x.parts) :
    ∃ code', Coded a t frameBase inClass e' code' ∧ code' <:+: code := by
  cases h with
  | int hx' | bool hx' | null hx' | name hx' =>
    cases hx.symm.trans hx'
    cases hp
  | @binary _ left right op first second tail hx' hne hfirst hsecond htail =>
    cases hx.symm.trans hx'
    simp only [Expr.parts, List.mem_cons, List.not_mem_nil, or_false] at hp
    rcases hp with rfl | rfl
    · exact ⟨first, hfirst, [], tail, rfl⟩
    · exact ⟨second, hsecond, htail.infix.trans ⟨first, [], List.append_nil _⟩⟩
  | @greaterEqual _ left right first second tail hx' hfirst hsecond htail =>
    cases hx.symm.trans hx'
    simp only [Expr.parts, List.mem_cons, List.not_mem_nil, or_false] at hp
    rcases hp with rfl | rfl
    · exact ⟨second, hsecond, htail.infix.trans ⟨first, [], List.append_nil _⟩⟩
    · exact ⟨first, hfirst, [], tail, rfl⟩
  | not hx' hcode =>
    cases hx.symm.trans hx'
    obtain rfl := List.mem_singleton.1 hp
    exact ⟨_, hcode, [], _, rfl⟩
  | @ifElse _ condition onTrue onFalse test yes no first done hx' htest hyes hno =>
    cases hx.symm.trans hx'
    simp only [Expr.parts, List.mem_cons, List.not_mem_nil, or_false] at hp
    rcases hp with rfl | rfl | rfl
    · exact ⟨test, htest, [], [Instruction.push 1, .branch .equal first] ++ no ++ [Instruction.jump done, .label first] ++
        yes ++ [Instruction.label done], by simp⟩
    · exact ⟨yes, hyes, _, [.label done], rfl⟩
    · exact ⟨no, hno, test ++ [Instruction.push 1, .branch .equal first],
        [Instruction.jump done, .label first] ++ yes ++ [Instruction.label done], by simp⟩
  | print hx' hcode =>
    cases hx.symm.trans hx'
    obtain rfl := List.mem_singleton.1 hp
    exact ⟨_, hcode, [], Code.duplicate ++ [.print], by simp⟩
  | @call _ _ _ codes r hx' _ hcodes =>
    cases hx.symm.trans hx'
    obtain ⟨code', hcode', hinfix⟩ := exists_coded_of_mem hcodes (List.mem_reverse.2 hp)
    exact ⟨code', hcode', hinfix.trans ⟨[.load .fp], targetOf frameBase inClass r ++ [.jumpSub], by simp⟩⟩
  | @methodCall _ _ _ _ codes r m hx' _ _ hcodes =>
    cases hx.symm.trans hx'
    obtain ⟨code', hcode', hinfix⟩ := exists_coded_of_mem hcodes (List.mem_reverse.2 hp)
    refine ⟨code', hcode', hinfix.trans ⟨[.load .fp], ?_, ?_⟩⟩
    · exact frameOf frameBase inClass r ++ Code.loadAt r.entry.offset ++ Code.duplicate ++ [.loadWord] ++
        Code.loadAt m.offset ++ [.jumpSub]
    · simp
  | @new _ _ args codes r hx' _ hcodes =>
    cases hx.symm.trans hx'
    obtain ⟨code', hcode', hinfix⟩ := exists_coded_of_mem hcodes hp
    refine ⟨code', hcode', hinfix.trans ⟨[], ?_, ?_⟩⟩
    · exact (List.replicate args.length Code.pushToHeap).flatten ++
        [.push (frameBase + Int64.ofInt r.entry.offset), .loadWord, .load .hp, .storeWord, .load .hp] ++ Code.bumpHeap
    · simp

/-- So it holds the code of everything below the expression. -/
theorem Coded.exists_below (h : Coded a t frameBase inClass e code) (hbelow : a.Below e e') :
    ∃ code', Coded a t frameBase inClass e' code' ∧ code' <:+: code := by
  induction hbelow generalizing code with
  | self => exact ⟨code, h, List.infix_refl code⟩
  | part hx hp _ ih =>
    obtain ⟨code', hcode', hinfix⟩ := h.part hx hp
    obtain ⟨code'', hcode'', hinfix'⟩ := ih hcode'
    exact ⟨code'', hcode'', hinfix'.trans hinfix⟩

end Expressions

/-! ## Declarations and programs -/

section Programs

variable {p : Program} {names : Names} {Γ : Context} {ds : List DeclRef} {frameBase : Int64} {body e : ExprRef} {whole : Code}

/-- The unit of a function holds the code of its local declarations, and behind it that of its body. -/
theorem infix_unitCode {entry : String} {f : Function} {locals : List Code} {code : Code} :
    locals.flatten ++ code <:+: unitCode entry f locals code := by
  refine ⟨[.label entry, .copyFp, .load .ra], ?_, ?_⟩
  · exact [Instruction.store .tm] ++ List.replicate f.locals.length Instruction.pop ++ [Instruction.store .ra, .pop] ++
      List.replicate f.params.length Instruction.pop ++ [Instruction.store .fp, .load .tm, .load .ra, .jumpSub]
  · simp [unitCode]

/-- **Declarations and the body behind them** have their code, one behind the other, in the code of the program. -/
theorem exists_coded_of_region (h : Binder.Faultless p names)
    (hcode : p.generate (p.bind names) frameBase = .ok whole) (hr : p.Region Γ ds body) :
    ∃ units n inClass codes code, (∀ unit ∈ units, unit <:+: whole) ∧
      List.Forall₂ (DeclCoded p.arena (p.bind names).resolutions frameBase units n inClass) ds codes ∧
      Coded p.arena (p.bind names).resolutions frameBase inClass body code ∧ codes.flatten ++ code <:+: whole := by
  induction hr with
  | main =>
    obtain ⟨units, decls, body, rfl, hdecls, hbody⟩ := generate_shape h hcode
    refine ⟨units, _, false, decls, body, fun unit hunit => ?_, hdecls, hbody, ?_⟩
    · exact (List.infix_of_mem_flatten hunit).trans (List.suffix_append _ _).isInfix
    · exact ⟨if p.declarations.isEmpty then [] else [.push 0], [Instruction.halt] ++ units.flatten, by simp⟩
  | function _ hx ih =>
    obtain ⟨units, n, inClass, codes, -, hunits, hcodes, -, -⟩ := ih
    obtain ⟨-, back, -, hback, -⟩ := forall₂_split hcodes
    cases hback with
    | cons hd _ =>
      cases n with
      | zero => exact hd.elim
      | succ n =>
        rw [DeclCoded, hx] at hd
        obtain ⟨entry, ⟨locals, code, hlocals, hbody, hunit⟩, -⟩ := hd
        exact ⟨units, n, inClass, locals, code, hunits, hlocals, hbody, infix_unitCode.trans (hunits _ hunit)⟩
  | method _ hx _ hms ih =>
    obtain ⟨units, n, inClass, codes, -, hunits, hcodes, -, -⟩ := ih
    obtain ⟨-, back, -, hback, -⟩ := forall₂_split hcodes
    cases hback with
    | cons hd _ =>
      cases n with
      | zero => exact hd.elim
      | succ n =>
        rw [DeclCoded, hx] at hd
        obtain ⟨entries, hentries, -⟩ := hd
        rw [hms] at hentries
        obtain ⟨-, back, -, hback, -⟩ := forall₂_split hentries
        cases hback with
        | cons hm _ =>
          obtain ⟨locals, code, hlocals, hbody, hunit⟩ := hm
          exact ⟨units, n, true, locals, code, hunits, hlocals, hbody, infix_unitCode.trans (hunits _ hunit)⟩

/-- **The code of each expression lies in the code of the program.** -/
theorem exists_coded_of_generate (h : Binder.Faultless p names)
    (hcode : p.generate (p.bind names) frameBase = .ok whole) (he : e.index < p.arena.nodes.size) :
    ∃ inClass code, Coded p.arena (p.bind names).resolutions frameBase inClass e code ∧ code <:+: whole := by
  obtain ⟨Γ, hs⟩ := h.exists_site he
  cases hs with
  | body hr he =>
    obtain ⟨-, -, inClass, codes, code, -, -, hbody, hinfix⟩ := exists_coded_of_region h hcode hr
    obtain ⟨code', hcode', hinfix'⟩ := hbody.exists_below (Arena.below_of_mem_walkFrom he)
    exact ⟨inClass, code', hcode', hinfix'.trans ((List.suffix_append _ _).isInfix.trans hinfix)⟩
  | init hr hx he =>
    obtain ⟨units, n, inClass, codes, code, -, hcodes, -, hinfix⟩ := exists_coded_of_region h hcode hr
    obtain ⟨front, back, -, hback, rfl⟩ := forall₂_split hcodes
    cases hback with
    | @cons _ init _ inits hd _ =>
      cases n with
      | zero => exact hd.elim
      | succ n =>
        rw [DeclCoded, hx] at hd
        obtain ⟨code', hcode', hinfix'⟩ := Coded.exists_below hd (Arena.below_of_mem_walkFrom he)
        refine ⟨inClass, code', hcode', hinfix'.trans (List.IsInfix.trans ?_ hinfix)⟩
        exact ⟨front.flatten, inits.flatten ++ code, by simp⟩

end Programs

end Generator

end Fool
