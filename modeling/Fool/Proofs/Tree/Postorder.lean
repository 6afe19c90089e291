import Fool.Tree.Basic
import Mathlib.Data.List.Nodup

/-!
# Arenas in which parts come before wholes

`Arena.first` is the number with which an expression begins, its parts included. An arena is `Postordered` if the
parts of every expression fill the numbers between that one and its own, one part behind the other. Adding an
expression behind its parts keeps this (`Postordered.addExpr`), and what is known of an expression stays true when
more is added (`Extends.first_eq`, `Tiles.mono`).

`Arena.walk` lists an expression and all below it, the whole before its parts; in a postordered arena it lists each
number from the first to the last once (`Postordered.walk_perm`).
-/

namespace Fool

/-- The expressions that an expression is made of, as they are written. -/
def Expr.parts : Expr → List ExprRef
  | int _ | bool _ | null | name _ => []
  | binary _ left right => [left, right]
  | not operand | print operand => [operand]
  | ifElse condition onTrue onFalse => [condition, onTrue, onFalse]
  | call _ args | methodCall _ _ args | new _ args => args

namespace Arena

/-! ## More is added -/

/-- Everything in `a` has its number in `a'` too. -/
structure Extends (a a' : Arena) : Prop where
  nodes : ∀ {i : Nat} {x : Node}, a.nodes[i]? = some x → a'.nodes[i]? = some x
  decls : ∀ {i : Nat} {d : Decl}, a.decls[i]? = some d → a'.decls[i]? = some d

theorem Extends.refl (a : Arena) : a.Extends a := ⟨id, id⟩

theorem Extends.trans {a b c : Arena} (h : a.Extends b) (h' : b.Extends c) : a.Extends c :=
  ⟨fun hx => h'.nodes (h.nodes hx), fun hx => h'.decls (h.decls hx)⟩

theorem Extends.expr? {a a' : Arena} (h : a.Extends a') {e : ExprRef} {x : Expr} (hx : a.expr? e = some x) :
    a'.expr? e = some x := by
  obtain ⟨n, hn, rfl⟩ := Option.map_eq_some_iff.1 hx
  exact Option.map_eq_some_iff.2 ⟨n, h.nodes hn, rfl⟩

theorem extends_addExpr (a : Arena) (x : Expr) (l : Option Location) : a.Extends (a.addExpr x l).2 := by
  refine ⟨fun {i n} hn => ?_, id⟩
  have hlt : i < a.nodes.size := (Array.getElem?_eq_some_iff.1 hn).1
  rw [addExpr, Array.getElem?_push_lt hlt, ← Array.getElem?_eq_getElem hlt, hn]

theorem extends_addDecl (a : Arena) (d : Decl) : a.Extends (a.addDecl d).2 := by
  refine ⟨id, fun {i x} hx => ?_⟩
  have hlt : i < a.decls.size := (Array.getElem?_eq_some_iff.1 hx).1
  rw [addDecl, Array.getElem?_push_lt hlt, ← Array.getElem?_eq_getElem hlt, hx]

theorem lt_size_of_expr? {a : Arena} {e : ExprRef} {x : Expr} (h : a.expr? e = some x) : e.index < a.nodes.size := by
  obtain ⟨n, hn, -⟩ := Option.map_eq_some_iff.1 h
  exact (Array.getElem?_eq_some_iff.1 hn).1

theorem exists_expr?_of_lt {a : Arena} {e : ExprRef} (h : e.index < a.nodes.size) : ∃ x, a.expr? e = some x :=
  ⟨_, Option.map_eq_some_iff.2 ⟨_, Array.getElem?_eq_getElem h, rfl⟩⟩

/-! ## Where an expression begins -/

/-- The number of the leftmost expression below `i`. -/
def first (a : Arena) (i : Nat) : Nat :=
  match (a.expr? ⟨i⟩).map Expr.parts with
  | some (part :: _) => if part.index < i then a.first part.index else i
  | _ => i
termination_by i

theorem first_leaf {a : Arena} {e : ExprRef} {x : Expr} (h : a.expr? e = some x) (hp : x.parts = []) :
    a.first e.index = e.index := by
  rw [first, h, Option.map_some, hp]

theorem first_of_part {a : Arena} {e part : ExprRef} {parts : List ExprRef} {x : Expr} (h : a.expr? e = some x)
    (hp : x.parts = part :: parts) (hlt : part.index < e.index) : a.first e.index = a.first part.index := by
  rw [first, h, Option.map_some, hp]
  exact if_pos hlt

theorem first_le (a : Arena) (i : Nat) : a.first i ≤ i := by
  induction i using Nat.strongRecOn with
  | _ i ih =>
    rw [first]
    split
    · split
      · rename_i part _ _ hlt
        exact Nat.le_trans (ih _ hlt) (Nat.le_of_lt hlt)
      · exact Nat.le_refl i
    · exact Nat.le_refl i

theorem Extends.first_eq {a a' : Arena} (h : a.Extends a') {i : Nat} (hi : i < a.nodes.size) :
    a'.first i = a.first i := by
  induction i using Nat.strongRecOn with
  | _ i ih =>
    obtain ⟨x, hx⟩ : ∃ x, a.expr? ⟨i⟩ = some x := exists_expr?_of_lt hi
    rw [first, first, hx, h.expr? hx]
    simp only [Option.map_some]
    split
    · split
      · rename_i part _ _ hlt
        exact ih _ hlt (Nat.lt_trans hlt hi)
      · rfl
    · rfl

/-! ## Expressions one behind the other -/

/-- The expressions fill the numbers from `lo` up to `hi`, one behind the other. -/
def Tiles (a : Arena) : Nat → List ExprRef → Nat → Prop
  | lo, [], hi => lo = hi
  | lo, e :: es, hi => a.first e.index = lo ∧ e.index < a.nodes.size ∧ a.Tiles (e.index + 1) es hi

theorem Tiles.mono {a a' : Arena} (h : a.Extends a') : ∀ {es : List ExprRef} {lo hi : Nat},
    a.Tiles lo es hi → a'.Tiles lo es hi
  | [], _, _, ht => ht
  | e :: _, _, _, ht => by
    obtain ⟨hf, hlt, hrest⟩ := ht
    obtain ⟨x, hx⟩ := exists_expr?_of_lt hlt
    exact ⟨by rw [h.first_eq hlt, hf], lt_size_of_expr? (h.expr? hx), hrest.mono h⟩

theorem Tiles.append {a : Arena} : ∀ {es fs : List ExprRef} {lo mid hi : Nat},
    a.Tiles lo es mid → a.Tiles mid fs hi → a.Tiles lo (es ++ fs) hi
  | [], _, _, _, _, h, h' => by cases h; exact h'
  | _ :: _, _, _, _, _, ⟨hf, hlt, hrest⟩, h' => ⟨hf, hlt, hrest.append h'⟩

theorem Tiles.singleton {a : Arena} {e : ExprRef} {lo : Nat} (hf : a.first e.index = lo)
    (hlt : e.index < a.nodes.size) : a.Tiles lo [e] (e.index + 1) := ⟨hf, hlt, rfl⟩

theorem Tiles.le {a : Arena} : ∀ {es : List ExprRef} {lo hi : Nat}, a.Tiles lo es hi → lo ≤ hi
  | [], _, _, h => by cases h; exact Nat.le_refl _
  | e :: _, _, _, ⟨hf, _, hrest⟩ => by
    have h1 := a.first_le e.index
    have h2 := hrest.le
    omega

/-- Each of the expressions lies between the ends. -/
theorem Tiles.bounds {a : Arena} : ∀ {es : List ExprRef} {lo hi : Nat}, a.Tiles lo es hi → ∀ {e : ExprRef}, e ∈ es →
    lo ≤ a.first e.index ∧ e.index < hi ∧ e.index < a.nodes.size
  | [], _, _, _, _, he => by cases he
  | e' :: es, _, _, ⟨hf, hlt, hrest⟩, e, he => by
    have hle := hrest.le
    rcases List.mem_cons.1 he with rfl | he
    · omega
    · obtain ⟨h1, h2, h3⟩ := hrest.bounds he
      have := a.first_le e'.index
      omega

/-! ## Postorder -/

/-- The parts of every expression stand right in front of it, one behind the other. -/
def Postordered (a : Arena) : Prop :=
  ∀ (e : ExprRef) (x : Expr), a.expr? e = some x → a.Tiles (a.first e.index) x.parts e.index

theorem postordered_empty : empty.Postordered := by
  intro e x h
  simp [empty, expr?] at h

theorem Postordered.part_bounds {a : Arena} (h : a.Postordered) {e part : ExprRef} {x : Expr}
    (hx : a.expr? e = some x) (hp : part ∈ x.parts) :
    a.first e.index ≤ a.first part.index ∧ part.index < e.index ∧ part.index < a.nodes.size :=
  (h e x hx).bounds hp

theorem expr?_addExpr_lt {a : Arena} {e : ExprRef} (x : Expr) (l : Option Location) (h : e.index < a.nodes.size) :
    (a.addExpr x l).2.expr? e = a.expr? e := by
  obtain ⟨y, hy⟩ := exists_expr?_of_lt h
  rw [hy, (a.extends_addExpr x l).expr? hy]

/-- An expression added behind its parts begins where they begin. -/
theorem first_addExpr {a : Arena} {lo : Nat} {x : Expr} (l : Option Location)
    (ht : a.Tiles lo x.parts a.nodes.size) : (a.addExpr x l).2.first a.nodes.size = lo := by
  have hx : (a.addExpr x l).2.expr? ⟨a.nodes.size⟩ = some x := a.expr?_addExpr_self x l
  cases hp : x.parts with
  | nil =>
    rw [hp] at ht
    exact (first_leaf hx hp).trans ht.symm
  | cons part parts =>
    rw [hp] at ht
    obtain ⟨hf, hlt, -⟩ := ht
    rw [← hf, ← (a.extends_addExpr x l).first_eq hlt]
    exact first_of_part hx hp hlt

/-- Adding an expression behind its parts keeps the order. -/
theorem Postordered.addExpr {a : Arena} (h : a.Postordered) {lo : Nat} {x : Expr} (l : Option Location)
    (ht : a.Tiles lo x.parts a.nodes.size) : (a.addExpr x l).2.Postordered := by
  have hext := a.extends_addExpr x l
  intro e y hy
  have hlt : e.index < a.nodes.size + 1 := by simpa [Arena.addExpr] using lt_size_of_expr? hy
  rcases Nat.lt_or_eq_of_le (Nat.le_of_lt_succ hlt) with hlt | heq
  · rw [expr?_addExpr_lt x l hlt] at hy
    rw [hext.first_eq hlt]
    exact (h e y hy).mono hext
  · obtain ⟨i⟩ := e
    subst heq
    have : y = x := Option.some.inj (hy.symm.trans (a.expr?_addExpr_self x l))
    subst this
    rw [first_addExpr l ht]
    exact ht.mono hext

theorem Postordered.addDecl {a : Arena} (h : a.Postordered) (d : Decl) : (a.addDecl d).2.Postordered := by
  intro e x hx
  have hx' : a.expr? e = some x := hx
  have hf : (a.addDecl d).2.first e.index = a.first e.index :=
    (a.extends_addDecl d).first_eq (lt_size_of_expr? hx')
  rw [hf]
  exact (h e x hx').mono (a.extends_addDecl d)

/-! ## All below an expression -/

/-- The expression and the expressions at most `n - 1` levels below it, the whole before its parts. -/
def walkFrom (a : Arena) : Nat → ExprRef → List ExprRef
  | 0, _ => []
  | n + 1, e =>
    e :: match a.expr? e with
      | some x => x.parts.flatMap (a.walkFrom n)
      | none => []

/-- The expression and all expressions below it, the whole before its parts. -/
def walk (a : Arena) (e : ExprRef) : List ExprRef := a.walkFrom (e.index + 1) e

/-- No path down is longer than the number it starts from. -/
theorem Postordered.walkFrom_eq {a : Arena} (h : a.Postordered) : ∀ {n : Nat} {e : ExprRef}, e.index < n →
    a.walkFrom n e = a.walk e := by
  intro n e
  induction n using Nat.strongRecOn generalizing e with
  | _ n ih =>
    intro hlt
    obtain ⟨m, rfl⟩ : ∃ m, n = m + 1 := ⟨n - 1, by omega⟩
    rw [walk, walkFrom, walkFrom]
    cases hx : a.expr? e with
    | none => rfl
    | some x =>
      congr 1
      refine List.flatMap_congr fun part hp => ?_
      obtain ⟨-, hpe, -⟩ := h.part_bounds hx hp
      rw [ih m (by omega) (by omega)]
      by_cases he : e.index < m + 1 ∧ e.index ≠ m
      · rw [ih e.index (by omega) hpe]
      · rw [show e.index = m by omega] at hpe ⊢
        rw [ih m (by omega) hpe]

/-- The walk of an expression is the expression and the walks of its parts. -/
theorem Postordered.walk_eq {a : Arena} (h : a.Postordered) {e : ExprRef} {x : Expr} (hx : a.expr? e = some x) :
    a.walk e = e :: x.parts.flatMap a.walk := by
  rw [walk, walkFrom, hx]
  congr 1
  refine List.flatMap_congr fun part hp => ?_
  exact h.walkFrom_eq (h.part_bounds hx hp).2.1

theorem mem_walk_self (a : Arena) (e : ExprRef) : e ∈ a.walk e := List.mem_cons_self

/-- What is below an expression has its parts below it too. -/
theorem Postordered.part_mem_walk {a : Arena} (h : a.Postordered) {whole e part : ExprRef} {x : Expr}
    (he : e ∈ a.walk whole) (hx : a.expr? e = some x) (hp : part ∈ x.parts) : part ∈ a.walk whole := by
  obtain ⟨i⟩ := whole
  induction i using Nat.strongRecOn with
  | _ i ih =>
    cases hy : a.expr? ⟨i⟩ with
    | none =>
      rw [walk, walkFrom, hy, List.mem_singleton] at he
      rw [he, hy] at hx
      cases hx
    | some y =>
      rw [h.walk_eq hy, List.mem_cons] at he ⊢
      right
      rcases he with rfl | he
      · obtain rfl := Option.some.inj (hx.symm.trans hy)
        exact List.mem_flatMap.2 ⟨part, hp, a.mem_walk_self part⟩
      · obtain ⟨⟨j⟩, hj, he⟩ := List.mem_flatMap.1 he
        exact List.mem_flatMap.2 ⟨⟨j⟩, hj, ih j (h.part_bounds hy hj).2.1 he⟩

/-- The walks of expressions one behind the other list the numbers between the ends, each once. -/
theorem Tiles.walk_perm {a : Arena} : ∀ {es : List ExprRef} {lo hi : Nat}, a.Tiles lo es hi →
    (∀ e ∈ es, ((a.walk e).map (·.index)).Perm (List.range' (a.first e.index) (e.index + 1 - a.first e.index))) →
    ((es.flatMap a.walk).map (·.index)).Perm (List.range' lo (hi - lo))
  | [], _, _, h, _ => by cases h; simp
  | e :: es, lo, hi, ⟨hf, hlt, hrest⟩, ih => by
    have hle := hrest.le
    have hfe := a.first_le e.index
    have hrest' := hrest.walk_perm fun e he => ih e (List.mem_cons_of_mem _ he)
    have hhead := ih e List.mem_cons_self
    have hsplit : List.range' lo (hi - lo) =
        List.range' lo (e.index + 1 - lo) ++ List.range' (e.index + 1) (hi - (e.index + 1)) := by
      rw [show hi - lo = (e.index + 1 - lo) + (hi - (e.index + 1)) by omega, ← List.range'_append_1,
        show lo + (e.index + 1 - lo) = e.index + 1 by omega]
    rw [List.flatMap_cons, List.map_append, hsplit]
    rw [hf] at hhead
    exact hhead.append hrest'

/-- The walk of an expression lists the numbers from its first to its own, each once. -/
theorem Postordered.walk_perm {a : Arena} (h : a.Postordered) {e : ExprRef} (he : e.index < a.nodes.size) :
    ((a.walk e).map (·.index)).Perm (List.range' (a.first e.index) (e.index + 1 - a.first e.index)) := by
  obtain ⟨i⟩ := e
  induction i using Nat.strongRecOn with
  | _ i ih =>
    obtain ⟨x, hx⟩ := exists_expr?_of_lt he
    have hparts := (h _ x hx).walk_perm fun part hp => ih part.index (h.part_bounds hx hp).2.1 (h.part_bounds hx hp).2.2
    have hfi := a.first_le i
    rw [h.walk_eq hx, List.map_cons]
    simp only at hparts hfi he ⊢
    have hsplit : List.range' (a.first i) (i + 1 - a.first i) = List.range' (a.first i) (i - a.first i) ++ [i] := by
      rw [show i + 1 - a.first i = (i - a.first i) + 1 by omega, List.range'_concat]
      congr 2
      omega
    rw [hsplit]
    exact (hparts.cons i).trans (List.perm_append_singleton i _).symm

/-- What is below an expression is exactly what has a number from its first to its own. -/
theorem Postordered.mem_walk {a : Arena} (h : a.Postordered) {e e' : ExprRef} (he : e.index < a.nodes.size) :
    e' ∈ a.walk e ↔ a.first e.index ≤ e'.index ∧ e'.index ≤ e.index := by
  have hperm := h.walk_perm he
  have hfe := a.first_le e.index
  have hmem : e' ∈ a.walk e ↔ e'.index ∈ (a.walk e).map (·.index) := by
    constructor
    · exact fun hm => List.mem_map_of_mem hm
    · intro hm
      obtain ⟨⟨i⟩, hi, heq⟩ := List.mem_map.1 hm
      obtain ⟨j⟩ := e'
      cases heq
      exact hi
  rw [hmem, hperm.mem_iff, List.mem_range'_1]
  omega

theorem Postordered.walk_nodup {a : Arena} (h : a.Postordered) {e : ExprRef} (he : e.index < a.nodes.size) :
    (a.walk e).Nodup := by
  have hn : ((a.walk e).map (·.index)).Nodup := (h.walk_perm he).nodup_iff.2 List.nodup_range'
  exact List.Nodup.of_map _ hn

end Arena

end Fool
