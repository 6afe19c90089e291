import Mathlib.Data.List.Perm.Subperm
import Fool.Proofs.Tree.Postorder
import Fool.Tree.Spine

/-!
# Where walks down the left operands end

`Arena.Stops follow k e` says that a walk down the left operands from `e` comes to its end behind `k` operators that
`follow` allows. An arena need not be a tree: a walk that comes to an expression again never ends. One that ends passes
different expressions (`Stops.passed`), so the arena has enough of them for `leftSpine` to find its end
(`Stops.length_le`), and what `leftSpine` finds from an expression is what it finds from its left operand and one
operator more (`Stops.leftSpine_follow`).
-/

namespace Fool

namespace Arena

variable {a : Arena} {follow : Operator → Bool}

/-! ## Single steps -/

theorem leftSpineFrom_append (n : Nat) (e : ExprRef) (passed : List (Operator × ExprRef)) :
    a.leftSpineFrom follow n e passed =
      ((a.leftSpineFrom follow n e []).1, (a.leftSpineFrom follow n e []).2 ++ passed) := by
  induction n generalizing e passed with
  | zero => simp [leftSpineFrom]
  | succ n ih =>
    unfold leftSpineFrom
    split
    · rename_i op left right _
      split
      · rw [ih left ((op, right) :: passed), ih left [(op, right)]]
        simp
      · simp
    · simp

theorem leftSpineFrom_stop {e : ExprRef} (h : ∀ op left right, a.expr? e = some (.binary op left right) →
    follow op = false) (n : Nat) (passed : List (Operator × ExprRef)) :
    a.leftSpineFrom follow n e passed = (e, passed) := by
  cases n with
  | zero => rfl
  | succ n =>
    unfold leftSpineFrom
    split
    · rename_i op left right hx
      simp [h op left right hx]
    · rfl

theorem leftSpineFrom_follow {e left right : ExprRef} {op : Operator} (hx : a.expr? e = some (.binary op left right))
    (hf : follow op = true) (n : Nat) (passed : List (Operator × ExprRef)) :
    a.leftSpineFrom follow (n + 1) e passed = a.leftSpineFrom follow n left ((op, right) :: passed) := by
  conv_lhs => unfold leftSpineFrom
  simp [hx, hf]

theorem leftSpine_stop {e : ExprRef} (h : ∀ op left right, a.expr? e = some (.binary op left right) →
    follow op = false) : a.leftSpine follow e = (e, []) :=
  leftSpineFrom_stop h _ _

/-- At every expression a walk stops or goes on. -/
theorem stop_or_follow (a : Arena) (follow : Operator → Bool) (e : ExprRef) :
    (∀ op left right, a.expr? e = some (.binary op left right) → follow op = false) ∨
      ∃ op left right, a.expr? e = some (.binary op left right) ∧ follow op = true := by
  by_cases h : ∃ op left right, a.expr? e = some (.binary op left right) ∧ follow op = true
  · exact .inr h
  · exact .inl fun op left right hx => Bool.eq_false_iff.2 fun hop => h ⟨op, left, right, hx, hop⟩

/-! ## Walks that end -/

/-- The walk down the left operands stops behind so many operators. -/
inductive Stops (a : Arena) (follow : Operator → Bool) : Nat → ExprRef → Prop
  | here {e : ExprRef} : (∀ op left right, a.expr? e = some (.binary op left right) → follow op = false) →
      Stops a follow 0 e
  | left {k : Nat} {e left right : ExprRef} {op : Operator} : a.expr? e = some (.binary op left right) →
      follow op = true → Stops a follow k left → Stops a follow (k + 1) e

/-- From an expression there is one walk. -/
theorem Stops.unique {k k' : Nat} {e : ExprRef} (h : a.Stops follow k e) (h' : a.Stops follow k' e) : k = k' := by
  induction h generalizing k' with
  | here hstop =>
    cases h' with
    | here => rfl
    | left hx hop => exact absurd (hstop _ _ _ hx) (by simp [hop])
  | left hx hop _ ih =>
    cases h' with
    | here hstop => exact absurd (hstop _ _ _ hx) (by simp [hop])
    | left hx' _ hleft =>
      cases hx.symm.trans hx'
      rw [ih hleft]

/-- The expressions that the walk passes have different numbers, for from each of them it is a different way to the
end. -/
theorem Stops.passed {k : Nat} {e : ExprRef} (h : a.Stops follow k e) : ∃ refs : List ExprRef, refs.length = k ∧
    refs.Nodup ∧ ∀ r ∈ refs, r.index < a.nodes.size ∧ ∃ j ≤ k, a.Stops follow j r := by
  induction h with
  | here => exact ⟨[], rfl, List.nodup_nil, by simp⟩
  | @left k e left right op hx hop hleft ih =>
    obtain ⟨refs, hlength, hnodup, hrefs⟩ := ih
    have hnew : e ∉ refs := by
      intro he
      obtain ⟨-, j, hle, hstops⟩ := hrefs e he
      have := hstops.unique (.left hx hop hleft)
      omega
    refine ⟨e :: refs, by simp [hlength], List.nodup_cons.2 ⟨hnew, hnodup⟩, fun r hr => ?_⟩
    rcases List.mem_cons.1 hr with rfl | hr
    · exact ⟨lt_size_of_expr? hx, k + 1, Nat.le_refl _, .left hx hop hleft⟩
    · obtain ⟨hlt, j, hle, hstops⟩ := hrefs r hr
      exact ⟨hlt, j, by omega, hstops⟩

/-- **A walk that ends is no longer than the arena.** -/
theorem Stops.length_le {k : Nat} {e : ExprRef} (h : a.Stops follow k e) : k ≤ a.nodes.size := by
  obtain ⟨refs, hlength, hnodup, hrefs⟩ := h.passed
  have hindex : (refs.map (·.index)).Nodup := hnodup.map fun r r' hr => by
    cases r
    cases r'
    simpa using hr
  have hsub : refs.map (·.index) ⊆ List.range a.nodes.size := by
    intro i hi
    obtain ⟨r, hr, rfl⟩ := List.mem_map.1 hi
    exact List.mem_range.2 (hrefs r hr).1
  have hle := (List.subperm_of_subset hindex hsub).length_le
  simpa [hlength] using hle

/-- Any two budgets that are large enough find the same. -/
theorem Stops.leftSpineFrom_eq {k n m : Nat} {e : ExprRef} (h : a.Stops follow k e) (hn : k ≤ n) (hm : k ≤ m)
    (passed : List (Operator × ExprRef)) : a.leftSpineFrom follow n e passed = a.leftSpineFrom follow m e passed := by
  induction h generalizing n m passed with
  | here hstop => rw [leftSpineFrom_stop hstop, leftSpineFrom_stop hstop]
  | left hx hop _ ih =>
    obtain ⟨n, rfl⟩ : ∃ j, n = j + 1 := ⟨n - 1, by omega⟩
    obtain ⟨m, rfl⟩ : ∃ j, m = j + 1 := ⟨m - 1, by omega⟩
    rw [leftSpineFrom_follow hx hop, leftSpineFrom_follow hx hop]
    exact ih (by omega) (by omega) _

/-- Behind an operator that is followed the walk goes on at the left operand. -/
theorem Stops.leftSpine_follow {k : Nat} {e left right : ExprRef} {op : Operator} (h : a.Stops follow k left)
    (hx : a.expr? e = some (.binary op left right)) (hop : follow op = true) :
    a.leftSpine follow e = ((a.leftSpine follow left).1, (a.leftSpine follow left).2 ++ [(op, right)]) := by
  have hle := (Stops.left hx hop h).length_le
  obtain ⟨n, hn⟩ : ∃ n, a.nodes.size = n + 1 := ⟨a.nodes.size - 1, by omega⟩
  unfold leftSpine
  rw [hn, leftSpineFrom_follow hx hop, leftSpineFrom_append, h.leftSpineFrom_eq (by omega : k ≤ n) (by omega : k ≤ n + 1)]

/-- What the walk comes to in the end is no operator that it follows. -/
theorem Stops.leftSpine_end {k : Nat} {e left right : ExprRef} {op : Operator} (h : a.Stops follow k e)
    (hx : a.expr? (a.leftSpine follow e).1 = some (.binary op left right)) : follow op = false := by
  induction h with
  | here hstop =>
    rw [leftSpine_stop hstop] at hx
    exact hstop _ _ _ hx
  | left hx' hop hleft ih =>
    rw [hleft.leftSpine_follow hx' hop] at hx
    exact ih hx

/-- If the walk goes on to an end from where it is given up, it has an end. -/
theorem Stops.of_leftSpineFrom {k n : Nat} {e : ExprRef} {passed : List (Operator × ExprRef)}
    (h : a.Stops follow k (a.leftSpineFrom follow n e passed).1) : ∃ k', a.Stops follow k' e := by
  induction n generalizing e passed with
  | zero => exact ⟨k, h⟩
  | succ n ih =>
    rcases a.stop_or_follow follow e with hstop | ⟨op, left, right, hx, hop⟩
    · exact ⟨0, .here hstop⟩
    · rw [leftSpineFrom_follow hx hop] at h
      obtain ⟨k', hleft⟩ := ih h
      exact ⟨k' + 1, .left hx hop hleft⟩

/-! ## Trees -/

theorem Postordered.left_lt (h : a.Postordered) {e left right : ExprRef} {op : Operator}
    (hx : a.expr? e = some (.binary op left right)) : left.index < e.index :=
  (h.part_bounds hx List.mem_cons_self).2.1

/-- In an arena in which parts come before wholes every walk ends. -/
theorem Postordered.stops (h : a.Postordered) (follow : Operator → Bool) (e : ExprRef) : ∃ k, a.Stops follow k e := by
  obtain ⟨i⟩ := e
  induction i using Nat.strongRecOn with
  | _ i ih =>
    rcases a.stop_or_follow follow ⟨i⟩ with hstop | ⟨op, left, right, hx, hop⟩
    · exact ⟨0, .here hstop⟩
    · obtain ⟨k, hleft⟩ := ih left.index (h.left_lt hx)
      exact ⟨k + 1, .left hx hop hleft⟩

theorem Postordered.leftSpine_follow (h : a.Postordered) {e left right : ExprRef} {op : Operator}
    (hx : a.expr? e = some (.binary op left right)) (hop : follow op = true) :
    a.leftSpine follow e = ((a.leftSpine follow left).1, (a.leftSpine follow left).2 ++ [(op, right)]) := by
  obtain ⟨k, hstops⟩ := h.stops follow left
  exact hstops.leftSpine_follow hx hop

/-- The walk finds only expressions of the arena. -/
theorem Postordered.leftSpine_lt (h : a.Postordered) (follow : Operator → Bool) {e : ExprRef} (he : e.index < a.nodes.size) :
    (a.leftSpine follow e).1.index < a.nodes.size ∧ ∀ p ∈ (a.leftSpine follow e).2, p.2.index < a.nodes.size := by
  obtain ⟨k, hstops⟩ := h.stops follow e
  induction hstops with
  | here hstop =>
    rw [leftSpine_stop hstop]
    exact ⟨he, by simp⟩
  | @left k e left right op hx hop hleft ih =>
    have hlt := (h.part_bounds hx List.mem_cons_self).2.2
    have hright := (h.part_bounds hx (List.mem_cons_of_mem left List.mem_cons_self)).2.2
    obtain ⟨hend, hall⟩ := ih hlt
    rw [hleft.leftSpine_follow hx hop]
    refine ⟨hend, fun p hp => ?_⟩
    rcases List.mem_append.1 hp with hp | hp
    · exact hall p hp
    · rw [List.mem_singleton.1 hp]
      exact hright

end Arena

end Fool
