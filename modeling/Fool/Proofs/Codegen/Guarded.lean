import Fool.Codegen.Decls
import Fool.Proofs.Binding.Budget
import Fool.Proofs.Binding.Limits

/-!
# Traversals end on programs that are no trees

A program need not come from a text: its expressions may be shared, missing, or lead in circles. If no function is inside
itself and no operator comes to itself over left operands alone, binding ends, and reports expressions that are nested too
deep exactly where a way down from a body or an initial value has more levels than the limit. A circle has such ways, so
behind a binding without faults there is none, and code generation ends as well (`ends_of_acyclic`).
-/

namespace Fool

open Relation (TransGen ReflTransGen)

namespace Generator

section Or

variable (arena : Arena) (resolutions : Resolutions) (frameBase : Int64)

/-- The code of a declaration; that of its local declarations is `localCode`. -/
def declCodeWith (localCode : DeclRef → GenM Code) (d : DeclRef) : GenM Code := do
  match arena.decl? d with
  | none => throw (.missingDeclaration d)
  | some (.varDecl v) => wholeCode arena resolutions frameBase v.init
  | some (.funDecl f) =>
    let entry ← addFunction arena resolutions frameBase localCode f
    return [.pushLabel entry]
  | some (.classDecl c) => methodTable arena resolutions frameBase localCode c

/-- The code of a declaration with a budget; at its end `stop` is done. -/
def declCodeOr (stop : DeclRef → GenM Code) : Nat → DeclRef → GenM Code
  | 0 => stop
  | n + 1 => declCodeWith arena resolutions frameBase (declCodeOr stop n)

end Or

variable {a : Arena} {t : Resolutions} {frameBase : Int64} {n : Nat} {f : Function} {g g' : DeclRef → GenM Code}

theorem declCode_succ (n : Nat) : declCode a t frameBase (n + 1) = declCodeWith a t frameBase (declCode a t frameBase n) :=
  rfl

/-- Code generation takes the end of its budget for a missing declaration. -/
theorem declCodeOr_throw : ∀ n,
    declCodeOr a t frameBase (fun d => throw (.missingDeclaration d)) n = declCode a t frameBase n
  | 0 => rfl
  | n + 1 => by rw [declCodeOr, declCode_succ, declCodeOr_throw n]

theorem mapM_agree {α β : Type} {g g' : α → GenM β} : ∀ {xs : List α}, (∀ x ∈ xs, g x = g' x) → xs.mapM g = xs.mapM g'
  | [], _ => by rw [List.mapM_nil, List.mapM_nil]
  | x :: xs, h => by
    rw [List.mapM_cons, List.mapM_cons, h x List.mem_cons_self, mapM_agree fun y hy => h y (List.mem_cons_of_mem _ hy)]

theorem addFunction_agree (h : ∀ d ∈ f.locals, g d = g' d) :
    addFunction a t frameBase g f = addFunction a t frameBase g' f := by
  unfold addFunction functionUnit
  rw [mapM_agree h]

/-- **What would be done at the end of the budget makes no difference,** if no class is misplaced further in and the budget
suffices for the ways inwards. -/
theorem declCodeOr_eq (stop : DeclRef → GenM Code) : ∀ (n m : Nat) (s : DeclSite),
    (∀ u c, ReflTransGen a.Nests s u → ¬a.MisplacedAt u c) → a.Reserve n s → a.Reserve m s →
    declCodeOr a t frameBase stop n s.decl = declCode a t frameBase m s.decl := by
  intro n
  induction n with
  | zero => exact fun m s _ hn _ => absurd hn Arena.not_reserve_zero
  | succ n ih =>
    intro m s hplaced hn hm
    obtain ⟨m, rfl⟩ : ∃ k, m = k + 1 := ⟨m - 1, by have := hm [] (.singleton s); simp at this; omega⟩
    have hagree : ∀ f, a.Hosts s f → ∀ d ∈ f.locals, declCodeOr a t frameBase stop n d = declCode a t frameBase m d :=
      fun f hf d hd => ih m ⟨d, false⟩ (fun u c hu => hplaced u c (.head ⟨rfl, f, hf, hd⟩ hu))
        (hn.nests ⟨rfl, f, hf, hd⟩) (hm.nests ⟨rfl, f, hf, hd⟩)
    rw [declCodeOr, declCode_succ, declCodeWith, declCodeWith]
    cases hx : a.decl? s.decl with
    | none => rfl
    | some x =>
      cases x with
      | varDecl v => rfl
      | funDecl f =>
        dsimp only
        rw [addFunction_agree (hagree f (.function hx))]
      | classDecl c =>
        have ho : s.outermost = true := by_contra fun ho => hplaced s c .refl ⟨by simpa using ho, hx⟩
        dsimp only [methodTable]
        rw [mapM_agree fun m hm => addFunction_agree (hagree m (.method ho hx hm))]

end Generator

namespace Program

open Generator

/-- The main part of the code, with a budget for declarations at whose end `stop` is done. -/
def mainCodeOr (p : Program) (resolutions : Resolutions) (frameBase : Int64) (stop : DeclRef → GenM Code) (n : Nat) :
    GenM Code := do
  let decls ← p.declarations.mapM (declCodeOr p.arena resolutions frameBase stop n)
  let body ← wholeCode p.arena resolutions frameBase p.body
  let unused : Code := if p.declarations.isEmpty then [] else [.push 0]
  return unused ++ decls.flatten ++ body ++ [.halt]

/-- The code of a program, with a budget for declarations at whose end `stop` is done. -/
def generateOr (p : Program) (bindings : Bindings) (frameBase : Int64) (stop : DeclRef → GenM Code) (n : Nat) :
    Except CodegenError Code :=
  if bindings.errors.isEmpty then do
    let (main, g) ← (p.mainCodeOr bindings.resolutions frameBase stop n).run .start
    return main ++ g.units.flatten
  else
    throw (.bindingErrors bindings.errors.length)

variable {p : Program} {n : Nat}

/-- Code generation is the case in which the end of the budget is taken for a missing declaration. -/
theorem generateOr_throw (p : Program) (bindings : Bindings) (frameBase : Int64) :
    p.generateOr bindings frameBase (fun d => throw (.missingDeclaration d)) (p.arena.decls.size + 1) =
      p.generate bindings frameBase := by
  unfold generateOr mainCodeOr
  rw [declCodeOr_throw]
  rfl

/-- **Code generation ends by itself** where all classes are at the outermost level. -/
theorem generateOr_eq (hdecls : ∀ d, ¬TransGen (Binder.Contains p.arena) d d)
    (hplaced : ∀ s c, p.Visits s → ¬p.arena.MisplacedAt s c) (bindings : Bindings) (frameBase : Int64)
    (stop : DeclRef → GenM Code) (hn : p.arena.decls.size < n) :
    p.generateOr bindings frameBase stop n = p.generate bindings frameBase := by
  have hmain : ∀ t, p.mainCodeOr t frameBase stop n = p.mainCode t frameBase := by
    intro t
    unfold mainCodeOr mainCode
    rw [mapM_agree fun d hd => declCodeOr_eq stop n _ ⟨d, true⟩ (fun u c hu => hplaced u c ⟨d, hd, hu⟩)
      (Arena.reserve_of_acyclic hdecls hn _) (Arena.reserve_of_acyclic hdecls (Nat.lt_succ_self _) _)]
  unfold generateOr generate
  rw [hmain]

end Program

theorem Arena.Below.reflTransGen {a : Arena} {e e' : ExprRef} (h : a.Below e e') : ReflTransGen a.Part e e' := by
  induction h with
  | self => exact .refl
  | part hx hp _ ih => exact .head ⟨_, hx, hp⟩ ih

/-- **Traversals of any expressions end.** If no function is inside itself and no operator comes to itself over left operands
alone, then
* every walk down the left operands comes to its end within as many steps as there are expressions,
* binding ends: what would be done at the end of its budget for declarations makes no difference,
* an expression that is nested too deep is reported exactly if some chain of references from a body or an initial value,
  outside misplaced classes, has more than 512 of them, the last of which may lead nowhere; a whole chain of operators is
  passed by one,
* so an expression that is reached and comes to itself again is always reported,
* and after a binding without faults no expression that is reached does, and code generation ends. -/
theorem ends_of_acyclic {p : Program} (hdecls : ∀ d, ¬TransGen (Binder.Contains p.arena) d d)
    (hleft : ∀ e, ¬TransGen p.arena.Left e e) (names : Names) :
    (∀ follow e n, p.arena.nodes.size ≤ n → p.arena.leftSpineFrom follow n e [] = p.arena.leftSpine follow e ∧
      ∀ op left right, p.arena.expr? (p.arena.leftSpine follow e).1 = some (.binary op left right) → follow op = false) ∧
    (∀ stop n, p.arena.decls.size < n → p.bindOr names stop n = p.bind names) ∧
    ((∃ err ∈ (p.bind names).errors, err.cause = .nestingTooDeep 512) ↔
      ∃ w way, p.Bound w ∧ List.IsChain p.arena.Under (w :: way) ∧ 512 < (w :: way).length) ∧
    (∀ w e, p.Bound w → p.arena.Below w e → TransGen p.arena.Part e e →
      ∃ err ∈ (p.bind names).errors, err.cause = .nestingTooDeep 512) ∧
    ((p.bind names).errors = [] → (∀ w e, p.Whole w → p.arena.Below w e → ¬TransGen p.arena.Part e e) ∧
      ∀ frameBase stop n, p.arena.decls.size < n →
        p.generateOr (p.bind names) frameBase stop n = p.generate (p.bind names) frameBase) := by
  have hstops := Arena.stops_of_acyclic hleft
  have hdeep := Program.nestingTooDeep_iff names (hstops _) hdecls
  have hcircle : ∀ w e, p.Bound w → p.arena.Below w e → TransGen p.arena.Part e e →
      ∃ err ∈ (p.bind names).errors, err.cause = .nestingTooDeep Binder.maxNesting := by
    intro w e hw he hback
    refine hdeep.2 ⟨w, hw, by_contra fun hnot => ?_⟩
    exact Arena.acyclic_of_not_deep (hstops _) hnot he.reflTransGen hback
  refine ⟨fun follow e n hn => ?_, fun stop n hn => Program.bindOr_eq hdecls stop hn, hdeep.trans ?_, hcircle, ?_⟩
  · obtain ⟨k, hk⟩ := hstops follow e
    exact ⟨hk.leftSpineFrom_eq_leftSpine hn, fun _ _ _ hx => hk.leftSpine_end hx⟩
  · simp only [Arena.Deep, List.length_cons, Nat.lt_succ_iff]
    constructor
    · rintro ⟨w, hw, way, hway, hlength⟩
      exact ⟨w, way, hw, hway, hlength⟩
    · rintro ⟨w, way, hw, hway, hlength⟩
      exact ⟨w, hw, way, hway, hlength⟩
  · intro hclean
    have hplaced : ∀ s c, p.Visits s → ¬p.arena.MisplacedAt s c := fun s c hs =>
      Program.not_misplacedAt (hstops _) hdecls hclean hs
    refine ⟨fun w e hw he hback => ?_, fun frameBase stop n hn => Program.generateOr_eq hdecls hplaced _ frameBase stop hn⟩
    obtain ⟨err, herr, -⟩ := hcircle w e (Program.bound_of_whole hplaced hw) he hback
    rw [hclean] at herr
    cases herr

/-! ## A circle, and a reference that leads nowhere -/

/-- A function with a local variable, whose initial value `1` is also the left operand of its body `1 + !(1 + !…)`, which
leads in a circle. -/
def circularBody : Program where
  arena :=
    ⟨#[⟨.int 1, none⟩, ⟨.binary .add ⟨0⟩ ⟨2⟩, none⟩, ⟨.not ⟨1⟩, none⟩],
      #[.varDecl ⟨⟨0⟩, .int, ⟨0⟩, none⟩, .funDecl ⟨⟨1⟩, .int, [], [⟨0⟩], ⟨1⟩, none⟩]⟩
  declarations := [⟨1⟩]
  body := ⟨0⟩

/-- The circle is reported. -/
theorem ends_of_acyclic_circularBody : (∀ d, ¬TransGen (Binder.Contains circularBody.arena) d d) ∧
    (∀ e, ¬TransGen circularBody.arena.Left e e) ∧ TransGen circularBody.arena.Part ⟨1⟩ ⟨1⟩ ∧
    ∃ err ∈ (circularBody.bind .empty).errors, err.cause = .nestingTooDeep 512 := by
  have hdecls : ∀ d, ¬TransGen (Binder.Contains circularBody.arena) d d := by
    refine acyclic_of_lt (f := (·.index)) ?_
    rintro ⟨_ | _ | i⟩ d' ⟨f, hf, hmem⟩
    · cases hf
    · cases hf
      rw [List.mem_singleton.1 hmem]
      exact Nat.zero_lt_one
    · cases hf
  have hleft : ∀ e, ¬TransGen circularBody.arena.Left e e := by
    refine acyclic_of_lt (f := (·.index)) ?_
    rintro ⟨_ | _ | _ | i⟩ l ⟨op, right, hx⟩
    · cases hx
    · cases hx
      exact Nat.zero_lt_one
    · cases hx
    · cases hx
  have hcircle : TransGen circularBody.arena.Part ⟨1⟩ ⟨1⟩ :=
    .head ⟨_, rfl, List.mem_cons_of_mem _ List.mem_cons_self⟩ (.single ⟨_, rfl, List.mem_cons_self⟩)
  have hhosts : circularBody.arena.Hosts ⟨⟨1⟩, true⟩ ⟨⟨1⟩, .int, [], [⟨0⟩], ⟨1⟩, none⟩ := .function rfl
  have hbody : circularBody.Bound ⟨1⟩ := .inr ⟨_, ⟨⟨1⟩, List.mem_cons_self, .refl⟩, .body hhosts⟩
  obtain ⟨-, -, -, hreported, -⟩ := ends_of_acyclic hdecls hleft .empty
  exact ⟨hdecls, hleft, hcircle, hreported ⟨1⟩ ⟨1⟩ hbody .self hcircle⟩

/-- 512 expressions `!`, each the operand of the next; the operand of the innermost is missing. -/
def missingOperand : Program where
  arena := ⟨((List.range 512).map fun i => ⟨.not ⟨if i = 0 then 999 else i - 1⟩, none⟩).toArray, #[]⟩
  declarations := []
  body := ⟨511⟩

theorem missingOperand_expr? {e : ExprRef} (h : e.index < 512) :
    missingOperand.arena.expr? e = some (.not ⟨if e.index = 0 then 999 else e.index - 1⟩) := by
  simp only [Arena.expr?, missingOperand, List.getElem?_toArray, List.getElem?_map, List.getElem?_range h,
    Option.map_some]

theorem missingOperand_lt {e : ExprRef} {x : Expr} (hx : missingOperand.arena.expr? e = some x) : e.index < 512 := by
  simpa [missingOperand] using Arena.lt_size_of_expr? hx

theorem missingOperand_under {e e' : ExprRef} (h : missingOperand.arena.Under e e') :
    e'.index = if e.index = 0 then 999 else e.index - 1 := by
  cases h with
  | part hx _ hp =>
    cases (missingOperand_expr? (missingOperand_lt hx)).symm.trans hx
    rw [List.mem_singleton.1 hp]
  | right hx | first hx _ | chain hx _ _ => cases (missingOperand_expr? (missingOperand_lt hx)).symm.trans hx

theorem missingOperand_deep : ∀ i < 512, missingOperand.arena.Deep (i + 1) ⟨i⟩ := by
  intro i
  induction i with
  | zero =>
    intro h
    exact Arena.deep_succ.2 ⟨_, .part (missingOperand_expr? h) nofun List.mem_cons_self, Arena.deep_zero _ _⟩
  | succ i ih =>
    intro h
    exact Arena.deep_succ.2 ⟨_, .part (missingOperand_expr? h) nofun List.mem_cons_self, ih (by omega)⟩

/-- A way over expressions leads to smaller numbers. -/
theorem missingOperand_length_le : ∀ {way : List ExprRef} {w : ExprRef},
    List.IsChain missingOperand.arena.Under (w :: way) → (∀ e ∈ w :: way, (missingOperand.arena.expr? e).isSome) →
    way.length ≤ w.index
  | [], _, _, _ => Nat.zero_le _
  | e :: way, w, hway, hsome => by
    obtain ⟨hunder, hrest⟩ := List.isChain_cons_cons.1 hway
    have hle := missingOperand_length_le hrest fun e' he' => hsome e' (List.mem_cons_of_mem _ he')
    obtain ⟨x, hx⟩ := Option.isSome_iff_exists.1 (hsome e (List.mem_cons_of_mem _ List.mem_cons_self))
    have hlt := missingOperand_lt hx
    have hindex := missingOperand_under hunder
    rw [List.length_cons]
    split at hindex <;> omega

/-- **The limit is reached by references, not by expressions:** 512 expressions are nested and none of them more, but the
reference to what is missing is reported. -/
theorem nestingTooDeep_missingOperand : (∀ d, ¬TransGen (Binder.Contains missingOperand.arena) d d) ∧
    (∀ e, ¬TransGen missingOperand.arena.Left e e) ∧
    (∃ err ∈ (missingOperand.bind .empty).errors, err.cause = .nestingTooDeep 512) ∧
    ¬∃ w way, missingOperand.Bound w ∧ List.IsChain missingOperand.arena.Under (w :: way) ∧
      (∀ e ∈ w :: way, (missingOperand.arena.expr? e).isSome) ∧ 512 < (w :: way).length := by
  have hdecls : ∀ d, ¬TransGen (Binder.Contains missingOperand.arena) d d := by
    refine acyclic_of_lt (f := (·.index)) ?_
    rintro d d' ⟨f, hf, -⟩
    cases hf
  have hleft : ∀ e, ¬TransGen missingOperand.arena.Left e e := by
    refine acyclic_of_lt (f := (·.index)) ?_
    rintro e l ⟨op, right, hx⟩
    cases (missingOperand_expr? (missingOperand_lt hx)).symm.trans hx
  refine ⟨hdecls, hleft, ?_, ?_⟩
  · have hstops := Arena.stops_of_acyclic hleft fun _ => true
    exact (Program.nestingTooDeep_iff .empty hstops hdecls).2 ⟨⟨511⟩, .inl rfl, missingOperand_deep 511 (by omega)⟩
  · rintro ⟨w, way, -, hway, hsome, hlong⟩
    obtain ⟨x, hx⟩ := Option.isSome_iff_exists.1 (hsome w List.mem_cons_self)
    have hlt := missingOperand_lt hx
    have hle := missingOperand_length_le hway hsome
    rw [List.length_cons] at hlong
    omega

end Fool
