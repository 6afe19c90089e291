import Mathlib.Logic.Relation
import Fool.Proofs.Tree.Chains

/-!
# Ways down in arenas that are no trees

References in an arena may be shared, lead nowhere or in circles. Where no operator comes to itself over left operands
alone, every walk down the left operands ends (`stops_of_acyclic`). `Arena.Under e x` says that `x` is one level below `e`,
a chain of operators being one level, and `Arena.Deep n e` that some way down from `e` takes `n` levels. Where not all
depths are reached, nothing leads in circles (`acyclic_of_not_deep`).
-/

namespace Fool

open Relation (TransGen ReflTransGen)

/-- The sources of a relation are numbered, and no two sources on one way have the same number. Then a way has no more
steps than there are numbers. -/
theorem length_le_of_isChain {α : Type} {R : α → α → Prop} {f : α → Nat} {N : Nat}
    (hlt : ∀ x y, R x y → f x < N) (hne : ∀ x y z, TransGen R x y → R y z → f x ≠ f y) {x : α}
    {way : List α} (h : List.IsChain R (x :: way)) : way.length ≤ N := by
  -- `passed` are the sources in front of `x`
  have hpassed : ∀ (way passed : List α) (x : α), List.IsChain R (x :: way) → (∀ y ∈ passed, TransGen R y x) →
      (∀ y ∈ passed, f y < N) → (passed.map f).Nodup → passed.length + way.length ≤ N := by
    intro way
    induction way with
    | nil =>
      intro passed x _ _ hbound hnodup
      have hsub : passed.map f ⊆ List.range N := by
        intro i hi
        obtain ⟨y, hy, rfl⟩ := List.mem_map.1 hi
        exact List.mem_range.2 (hbound y hy)
      simpa using (List.subperm_of_subset hnodup hsub).length_le
    | cons z way ih =>
      intro passed x hchain hto hbound hnodup
      obtain ⟨hxz, hrest⟩ := List.isChain_cons_cons.1 hchain
      have hnew : f x ∉ passed.map f := by
        intro hin
        obtain ⟨y, hy, heq⟩ := List.mem_map.1 hin
        exact hne y x z (hto y hy) hxz heq
      have := ih (x :: passed) z hrest
        (List.forall_mem_cons.2 ⟨.single hxz, fun y hy => (hto y hy).tail hxz⟩)
        (List.forall_mem_cons.2 ⟨hlt x z hxz, hbound⟩) (List.nodup_cons.2 ⟨hnew, hnodup⟩)
      simp only [List.length_cons] at this ⊢
      omega
  simpa using hpassed way [] x h (by simp) (by simp) List.nodup_nil

/-- Where every step leads to a smaller number, nothing leads in circles. -/
theorem acyclic_of_lt {α : Type} {R : α → α → Prop} {f : α → Nat} (h : ∀ x y, R x y → f y < f x) (x : α) :
    ¬TransGen R x x := by
  have hlt : ∀ x y, TransGen R x y → f y < f x := by
    intro x y hxy
    induction hxy with
    | single hstep => exact h _ _ hstep
    | tail _ hstep ih => exact Nat.lt_trans (h _ _ hstep) ih
  exact fun hcircle => Nat.lt_irrefl _ (hlt x x hcircle)

namespace Arena

variable {a : Arena} {e e' x l left right : ExprRef} {op : Operator} {k n : Nat}

/-! ## Left operands -/

/-- The left operand of an operator. -/
def Left (a : Arena) (e l : ExprRef) : Prop := ∃ op right, a.expr? e = some (.binary op l right)

/-- **Where no operator comes to itself over left operands alone, every walk down the left operands ends.** -/
theorem stops_of_acyclic (h : ∀ e, ¬TransGen a.Left e e) (follow : Operator → Bool) (e : ExprRef) :
    ∃ k, a.Stops follow k e := by
  have hways : ∀ way, List.IsChain a.Left (e :: way) → way.length ≤ a.nodes.size := fun way =>
    length_le_of_isChain (f := (·.index)) (fun _ _ ⟨_, _, hx⟩ => lt_size_of_expr? hx)
      (fun x y _ hxy _ hindex => h x (by cases x; cases y; cases hindex; exact hxy))
  generalize a.nodes.size = n at hways
  induction n generalizing e with
  | zero =>
    refine ⟨0, .here fun op left right hx => ?_⟩
    have := hways [left] (.cons_cons ⟨op, right, hx⟩ (.singleton _))
    simp at this
  | succ n ih =>
    rcases a.stop_or_follow follow e with hstop | ⟨op, left, right, hx, hop⟩
    · exact ⟨0, .here hstop⟩
    · obtain ⟨k, hk⟩ := ih left fun way hway => by
        simpa using hways (left :: way) (.cons_cons ⟨op, right, hx⟩ hway)
      exact ⟨k + 1, .left hx hop hk⟩

/-- A walk that ends ends with any larger budget where it ends with the size of the arena. -/
theorem Stops.leftSpineFrom_eq_leftSpine {follow : Operator → Bool} (h : a.Stops follow k e) (hn : a.nodes.size ≤ n) :
    a.leftSpineFrom follow n e [] = a.leftSpine follow e :=
  h.leftSpineFrom_eq (Nat.le_trans h.length_le hn) h.length_le []

/-! ## Levels -/

/-- The expression is an operator. -/
def IsBinary (a : Arena) (e : ExprRef) : Prop := ∃ op left right, a.expr? e = some (.binary op left right)

/-- **One level further down:** to a part, or in a chain of operators to an operand of the chain. -/
inductive Under (a : Arena) : ExprRef → ExprRef → Prop
  | part {e part : ExprRef} {x : Expr} : a.expr? e = some x → (∀ op left right, x ≠ .binary op left right) →
      part ∈ x.parts → Under a e part
  | right {e left right : ExprRef} {op : Operator} : a.expr? e = some (.binary op left right) → Under a e right
  | first {e left right : ExprRef} {op : Operator} : a.expr? e = some (.binary op left right) → ¬a.IsBinary left →
      Under a e left
  | chain {e left right x : ExprRef} {op : Operator} : a.expr? e = some (.binary op left right) → a.IsBinary left →
      Under a left x → Under a e x

theorem under_node {y : Expr} (hx : a.expr? e = some y) (hop : ∀ op left right, y ≠ .binary op left right) :
    a.Under e x ↔ x ∈ y.parts := by
  constructor
  · intro h
    cases h with
    | part hy _ hp => cases hx.symm.trans hy; exact hp
    | right hy | first hy _ | chain hy _ _ => cases hx.symm.trans hy; exact absurd rfl (hop _ _ _)
  · exact .part hx hop

/-- Below a chain of operators are the operands that the walk down the left operands finds. -/
theorem Stops.under_iff (h : a.Stops (fun _ => true) k e) (hop : a.IsBinary e) :
    a.Under e x ↔ x = (a.leftSpine (fun _ => true) e).1 ∨ ∃ r ∈ (a.leftSpine (fun _ => true) e).2, x = r.2 := by
  induction h with
  | here hstop =>
    obtain ⟨op, left, right, hx⟩ := hop
    exact absurd (hstop _ _ _ hx) (by simp)
  | @left k e left right op hx _ hleft ih =>
    rw [hleft.leftSpine_follow hx rfl]
    have hend : a.Under e x ↔ x = right ∨ (¬a.IsBinary left ∧ x = left) ∨ (a.IsBinary left ∧ a.Under left x) := by
      constructor
      · intro hunder
        cases hunder with
        | part hy hno _ => cases hx.symm.trans hy; exact absurd rfl (hno _ _ _)
        | right hy => cases hx.symm.trans hy; exact .inl rfl
        | first hy hl => cases hx.symm.trans hy; exact .inr (.inl ⟨hl, rfl⟩)
        | chain hy hl hu => cases hx.symm.trans hy; exact .inr (.inr ⟨hl, hu⟩)
      · rintro (rfl | ⟨hl, rfl⟩ | ⟨hl, hu⟩)
        · exact .right hx
        · exact .first hx hl
        · exact .chain hx hl hu
    rw [hend]
    simp only [List.mem_append, List.mem_singleton, or_and_right, exists_or, exists_eq_left]
    by_cases hl : a.IsBinary left
    · rw [ih hl]
      simp only [hl, not_true, false_and, true_and, false_or]
      rw [or_comm, or_assoc]
    · have hspine : a.leftSpine (fun _ => true) left = (left, []) :=
        leftSpine_stop fun op' l r hy => absurd ⟨op', l, r, hy⟩ hl
      simp only [hspine, hl, not_false_eq_true, true_and, false_and, or_false, List.not_mem_nil, exists_false,
        false_or]
      exact or_comm

/-- Some way down from the expression takes so many levels. The last of its references may lead nowhere. -/
def Deep (a : Arena) (n : Nat) (e : ExprRef) : Prop := ∃ way, List.IsChain a.Under (e :: way) ∧ n ≤ way.length

theorem deep_zero (a : Arena) (e : ExprRef) : a.Deep 0 e := ⟨[], .singleton e, Nat.zero_le _⟩

theorem deep_succ : a.Deep (n + 1) e ↔ ∃ x, a.Under e x ∧ a.Deep n x := by
  constructor
  · rintro ⟨_ | ⟨x, way⟩, hway, hlength⟩
    · exact absurd hlength (by simp)
    · obtain ⟨hx, hrest⟩ := List.isChain_cons_cons.1 hway
      exact ⟨x, hx, way, hrest, by simpa using hlength⟩
  · rintro ⟨x, hx, way, hway, hlength⟩
    exact ⟨x :: way, .cons_cons hx hway, by simpa using hlength⟩

/-- Below an expression that is missing there is no level. -/
theorem not_deep_missing (hx : a.expr? e = none) : ¬a.Deep (n + 1) e := by
  rw [deep_succ]
  rintro ⟨x, hunder, -⟩
  cases hunder with
  | part hy _ _ | right hy | first hy _ | chain hy _ _ => cases hx.symm.trans hy

/-! ## Circles -/

/-- The expression has the part. -/
def Part (a : Arena) (e part : ExprRef) : Prop := ∃ x, a.expr? e = some x ∧ part ∈ x.parts

/-- Where every way down from one level further down ends, every way down from here does: a chain of operators adds only the
operators on its way. -/
theorem Stops.acc (h : a.Stops (fun _ => true) k e) (hunder : ∀ x, a.Under e x → Acc (flip a.Part) x) :
    Acc (flip a.Part) e := by
  induction h with
  | @here e hstop =>
    refine ⟨e, fun x ⟨y, hy, hp⟩ => hunder x (.part hy (fun op left right heq => ?_) hp)⟩
    exact absurd (hstop op left right (heq ▸ hy)) (by simp)
  | @left k e left right op hx _ _ ih =>
    refine ⟨e, fun x ⟨y, hy, hp⟩ => ?_⟩
    cases hx.symm.trans hy
    simp only [Expr.parts, List.mem_cons, List.not_mem_nil, or_false] at hp
    rcases hp with rfl | rfl
    · by_cases hl : a.IsBinary x
      · exact ih fun y hy => hunder y (.chain hx hl hy)
      · exact hunder x (.first hx hl)
    · exact hunder x (.right hx)

/-- Where some depth is not reached, every way down ends. -/
theorem acc_of_not_deep (hstops : ∀ e, ∃ k, a.Stops (fun _ => true) k e) (h : ¬a.Deep n e) : Acc (flip a.Part) e := by
  induction n generalizing e with
  | zero => exact absurd (a.deep_zero e) h
  | succ n ih =>
    obtain ⟨k, hk⟩ := hstops e
    exact hk.acc fun x hx => ih fun hdeep => h (deep_succ.2 ⟨x, hx, hdeep⟩)

/-- **Where some depth is not reached, nothing that is reached leads back to itself.** -/
theorem acyclic_of_not_deep (hstops : ∀ e, ∃ k, a.Stops (fun _ => true) k e) (h : ¬a.Deep n e)
    (he : ReflTransGen a.Part e e') : ¬TransGen a.Part e' e' := by
  have hacc : Acc (flip a.Part) e' := by
    induction he with
    | refl => exact acc_of_not_deep hstops h
    | tail _ hstep ih => exact ih.inv hstep
  clear he
  induction hacc with
  | intro e _ ih =>
    intro hcircle
    obtain ⟨y, hy, hback⟩ := TransGen.head'_iff.1 hcircle
    exact ih y hy (.tail' hback hy)

end Arena

end Fool
