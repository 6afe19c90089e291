import Fool.Proofs.Parse.Balance
import Fool.Proofs.Parse.Quiet

/-!
# Reading builds trees

`Arena.Gains a held b left` says what becomes of references while one arena grows to another: what has been in hand and what
has been added is referred to by what has been added, or is still in hand, each once. This holds of every step that threads
references (`Threads.builds`), also when it fails: what is in hand then is lost, and nothing refers to it ever again. So
whatever has been read by one parser, with or without success, its arena is a forest (`Arena.Forest`), and a program that
has been read is a tree which contains all that has been added for it (`forest_of_steps`).
-/

namespace Fool

namespace Arena

variable {a b c : Arena} {held mid left : List Ref}

/-- What one arena has more than another, and the references in hand before and behind its making. -/
structure Gains (a : Arena) (held : List Ref) (b : Arena) (left : List Ref) : Prop where
  grown : a.Extends b
  before : ∀ x ∈ a.added b, ∀ y ∈ b.refs x, y.Before x
  uses : ((a.added b).flatMap b.refs ++ left).Perm (held ++ a.added b)
  located : ∀ e, .expr e ∈ a.added b → (b.location? e).isSome

/-! ## How an arena grows -/

theorem has_of_mem_added {x : Ref} (h : x ∈ a.added b) : b.Has x := (mem_addedFrom.1 h).1

/-- References that are in hand all the time. -/
theorem Gains.frame (h : a.Gains held b left) (rest : List Ref) : a.Gains (rest ++ held) b (rest ++ left) where
  grown := h.grown
  before := h.before
  uses := by
    have hall := h.uses.append_left rest
    rw [← List.append_assoc rest held] at hall
    exact (List.perm_append_comm_assoc ..).trans hall
  located := h.located

theorem Gains.trans (h : a.Gains held b mid) (h' : b.Gains mid c left) : a.Gains held c left := by
  have hadded : (a.added c).Perm (a.added b ++ b.added c) := added_perm h.grown.size_le h'.grown.size_le
  have hrefs : ∀ x ∈ a.added b, c.refs x = b.refs x := fun x hx => h'.grown.refs_eq (has_of_mem_added hx)
  refine ⟨h.grown.trans h'.grown, fun x hx y hy => ?_, ?_, fun e he => ?_⟩
  · rcases List.mem_append.1 (hadded.subset hx) with hx | hx
    · rw [hrefs x hx] at hy
      exact h.before x hx y hy
    · exact h'.before x hx y hy
  · have hflat : ((a.added c).flatMap c.refs).Perm ((a.added b).flatMap b.refs ++ (b.added c).flatMap c.refs) := by
      rw [← List.flatMap_congr hrefs, ← List.flatMap_append]
      exact hadded.flatMap_right _
    calc
      ((a.added c).flatMap c.refs ++ left).Perm
          ((a.added b).flatMap b.refs ++ (b.added c).flatMap c.refs ++ left) := hflat.append_right left
      _ = (a.added b).flatMap b.refs ++ ((b.added c).flatMap c.refs ++ left) := List.append_assoc ..
      _ |>.Perm ((a.added b).flatMap b.refs ++ (mid ++ b.added c)) := h'.uses.append_left _
      _ = (a.added b).flatMap b.refs ++ mid ++ b.added c := (List.append_assoc ..).symm
      _ |>.Perm (held ++ a.added b ++ b.added c) := h.uses.append_right _
      _ = held ++ (a.added b ++ b.added c) := List.append_assoc ..
      _ |>.Perm (held ++ a.added c) := hadded.symm.append_left held
  · rcases List.mem_append.1 (hadded.subset he) with he | he
    · have hlt : e.index < b.nodes.size := has_of_mem_added he
      have hnode := h'.grown.nodes (Array.getElem?_eq_getElem hlt)
      have hold := h.located e he
      unfold location? at hold ⊢
      rwa [hnode, ← Array.getElem?_eq_getElem hlt]
    · exact h'.located e he

/-- What is in hand between two ways to grow, of which the second one does not need it, is in hand at the end. -/
theorem Gains.append (h : a.Gains held b mid) (h' : b.Gains [] c left) : a.Gains held c (mid ++ left) := by
  have hframe := h'.frame mid
  rw [List.append_nil] at hframe
  exact h.trans hframe

theorem added_addExpr (x : Expr) (place : Option Location) : a.added (a.addExpr x place).2 = [.expr ⟨a.nodes.size⟩] := by
  simp [added, addedFrom, addExpr]

theorem added_addDecl (x : Decl) : a.added (a.addDecl x).2 = [.decl ⟨a.decls.size⟩] := by
  simp [added, addedFrom, addDecl]

/-- What is referred to is no longer in hand, and the new reference is. -/
theorem uses_new {xs rest : List Ref} (h : held.Perm (xs ++ rest)) (new : Ref) : (xs ++ new :: rest).Perm (held ++ [new]) :=
  List.perm_middle.trans ((h.symm.cons new).trans (List.perm_append_singleton new held).symm)

theorem Gains.addExpr {x : Expr} {place : Location} {rest : List Ref} (hhas : ∀ y ∈ held, a.Has y)
    (h : held.Perm (x.refs ++ rest)) :
    a.Gains held (a.addExpr x (some place)).2 (.expr ⟨a.nodes.size⟩ :: rest) := by
  have hrefs : (a.addExpr x (some place)).2.refs (.expr ⟨a.nodes.size⟩) = x.refs := by
    have hx : (a.addExpr x (some place)).2.expr? ⟨a.nodes.size⟩ = some x := a.expr?_addExpr_self x (some place)
    rw [Arena.refs, hx]
    rfl
  refine ⟨a.extends_addExpr x _, fun r hr y hy => ?_, ?_, fun e he => ?_⟩
  · rw [added_addExpr, List.mem_singleton] at hr
    rw [hr, hrefs] at hy
    have hlt := hhas y (h.symm.subset (List.mem_append_left _ hy))
    obtain ⟨part, -, rfl⟩ := List.mem_map.1 hy
    exact hr ▸ hlt
  · rw [added_addExpr, List.flatMap_singleton, hrefs]
    exact uses_new h _
  · rw [added_addExpr, List.mem_singleton] at he
    cases he
    simp [location?, Arena.addExpr]

theorem Gains.addDecl {x : Decl} {rest : List Ref} (hhas : ∀ y ∈ held, a.Has y) (h : held.Perm (x.refs ++ rest)) :
    a.Gains held (a.addDecl x).2 (.decl ⟨a.decls.size⟩ :: rest) := by
  have hrefs : (a.addDecl x).2.refs (.decl ⟨a.decls.size⟩) = x.refs := by
    simp [Arena.refs, Arena.addDecl, decl?]
  refine ⟨a.extends_addDecl x, fun r hr y hy => ?_, ?_, fun e he => ?_⟩
  · rw [added_addDecl, List.mem_singleton] at hr
    rw [hr, hrefs] at hy
    have hlt := hhas y (h.symm.subset (List.mem_append_left _ hy))
    subst hr
    cases y with
    | expr e => trivial
    | decl d => exact hlt
  · rw [added_addDecl, List.flatMap_singleton, hrefs]
    exact uses_new h _
  · rw [added_addDecl, List.mem_singleton] at he
    cases he

/-- What is in hand is there. -/
theorem Gains.has (h : a.Gains held b left) (hhas : ∀ y ∈ held, a.Has y) : ∀ y ∈ left, b.Has y := by
  intro y hy
  rcases List.mem_append.1 (h.uses.subset (List.mem_append_right _ hy)) with hy | hy
  · exact h.grown.has (hhas y hy)
  · exact has_of_mem_added hy

end Arena

namespace Parser

variable {α : Type} {s s' : Parser} {p : ParseM α} {held : List Ref} {left : α → List Ref}

/-- The steps that can be made with a parser. -/
inductive Acts : {α : Type} → ParseM α → Prop
  | reads {α : Type} {p : ParseM α} : Reads p → Acts p
  | peek : Acts peek
  | advance : Acts advance
  | location : Acts location
  | expect (kind : TokenKind) : Acts (expect kind)
  | identifier : Acts identifier
  | unexpected (expected : String) : Acts (unexpected expected)
  | intern (name : String) : Acts (intern name)
  | enter : Acts enter
  | leave : Acts leave

/-- One step is made behind the other, by the same parser; each may fail. -/
inductive Steps (s : Parser) : Parser → Prop
  | none : Steps s s
  | more {α : Type} {s' : Parser} {p : ParseM α} : Steps s s' → Acts p → Steps s (after p s')

end Parser

end Fool
