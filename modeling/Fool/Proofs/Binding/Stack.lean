import Fool.Proofs.Binding.Places
import Mathlib.Data.List.Perm.Basic

/-!
# What the open scopes hold

Scopes are opened and closed, and names are declared in the innermost one, in any order. `OpenScope.opened` says which
scopes are open then, and which declarations each has taken, without any places; `OpenScope.scope` places them, and that is
what the stack holds (`Scopes.run_eq`). From what was taken follows where it lies, what a name means, and that a block which
only works inside the scopes that it opens leaves no trace (`Scopes.run_balanced`).
-/

namespace Fool

/-! ## What is done -/

/-- A name that is declared at some depth. -/
structure DeclaredAt extends Declared where
  depth : Nat

namespace Scopes

/-- What can be done to the open scopes. -/
inductive Action where
  | push (kind : ScopeKind)
  | pop
  | declare (d : DeclaredAt)

/-- A declaration that is refused leaves the scopes as they are. -/
def act (s : Scopes) : Action → Scopes
  | .push kind => s.push (.empty kind)
  | .pop => s.pop
  | .declare d => ((s.declare d.name d.depth d.ty d.kind).map (·.2)).getD s

/-- One action after the other. -/
def run (s : Scopes) (actions : List Action) : Scopes := actions.foldl act s

theorem run_append (s : Scopes) (actions more : List Action) : s.run (actions ++ more) = (s.run actions).run more :=
  List.foldl_append

end Scopes

/-! ## What has been taken -/

/-- An open scope, and the declarations that it has taken, in their order. -/
structure OpenScope where
  kind : ScopeKind
  declared : List DeclaredAt

namespace OpenScope

/-- The name is taken. -/
def Has (o : OpenScope) (name : Symbol) : Prop := ∃ d ∈ o.declared, d.name = name

instance (o : OpenScope) (name : Symbol) : Decidable (o.Has name) :=
  inferInstanceAs (Decidable (∃ d ∈ o.declared, d.name = name))

/-- A declaration is taken if its name is not. -/
def declare (o : OpenScope) (d : DeclaredAt) : OpenScope :=
  if o.Has d.name then o else { o with declared := o.declared ++ [d] }

/-- The open scopes after an action, innermost first. -/
def act : List OpenScope → Scopes.Action → List OpenScope
  | os, .push kind => ⟨kind, []⟩ :: os
  | os, .pop => os.tail
  | [], .declare _ => []
  | o :: os, .declare d => o.declare d :: os

/-- The scopes that are open after some actions, when none was open before. -/
def opened (actions : List Scopes.Action) : List OpenScope := actions.foldl act []

/-- How many of the declarations take a slot, or do not. -/
def count (slot : Bool) (ds : List DeclaredAt) : Nat := ds.countP fun d => d.kind.takesSlot == slot

/-- The entry of a declaration behind others: it lies behind those of its sort. -/
def entry (kind : ScopeKind) (before : List DeclaredAt) (d : DeclaredAt) : Entry :=
  ⟨d.kind, d.depth, Block.place kind d.kind.takesSlot (count d.kind.takesSlot before), d.ty⟩

/-- What a name means in the scope: its declaration, behind those before it. -/
def meaning? (o : OpenScope) (name : Symbol) : Option Entry :=
  (o.declared.find? (·.name = name)).map (entry o.kind (o.declared.takeWhile (·.name ≠ name)))

/-- The entries of declarations behind others. -/
def entriesFrom (kind : ScopeKind) : List DeclaredAt → List DeclaredAt → List (Symbol × Entry)
  | _, [] => []
  | before, d :: ds => (d.name, entry kind before d) :: entriesFrom kind (before ++ [d]) ds

/-- The scope with its declarations at their places. -/
def scope (o : OpenScope) : Scope where
  kind := o.kind
  entries := entriesFrom o.kind [] o.declared
  nextDeclaration := Block.place o.kind false (count false o.declared)
  nextSlot := Block.place o.kind true (count true o.declared)

variable {kind : ScopeKind} {slot : Bool} {before ds : List DeclaredAt} {d : DeclaredAt} {o : OpenScope}

@[simp] theorem count_nil : count slot [] = 0 := rfl

@[simp] theorem count_concat (ds : List DeclaredAt) (d : DeclaredAt) :
    count slot (ds ++ [d]) = count slot ds + if d.kind.takesSlot = slot then 1 else 0 := by
  simp [count, List.countP_append, List.countP_singleton]

theorem count_le_length (slot : Bool) (ds : List DeclaredAt) : count slot ds ≤ ds.length := List.countP_le_length

/-! ## Entries -/

theorem entriesFrom_concat (before ds : List DeclaredAt) (d : DeclaredAt) :
    entriesFrom kind before (ds ++ [d]) = entriesFrom kind before ds ++ [(d.name, entry kind (before ++ ds) d)] := by
  induction ds generalizing before with
  | nil => simp [entriesFrom]
  | cons d' ds ih => simp [entriesFrom, ih]

/-- The entries are those of the declarations, in their order. -/
theorem map_entriesFrom (kind : ScopeKind) (before ds : List DeclaredAt) :
    (entriesFrom kind before ds).map (fun x => ⟨⟨x.1, x.2.kind, x.2.ty⟩, x.2.depth⟩) = ds := by
  induction ds generalizing before with
  | nil => rfl
  | cons d ds ih => rw [entriesFrom, List.map_cons, ih]; rfl

/-- The entries of each sort lie one behind the other. -/
theorem offsets_entriesFrom (slot : Bool) (before ds : List DeclaredAt) :
    ((entriesFrom kind before ds).filter (·.2.kind.takesSlot == slot)).map (·.2.offset) =
      (List.range' (count slot before) (count slot ds)).map (Block.place kind slot) := by
  induction ds generalizing before with
  | nil => simp [entriesFrom]
  | cons d ds ih =>
    have hcons : count slot (d :: ds) = count slot ds + if d.kind.takesSlot = slot then 1 else 0 := by
      simp [count, List.countP_cons]
    by_cases hd : d.kind.takesSlot = slot
    · have hhead : (entry kind before d).offset = Block.place kind slot (count slot before) := by rw [entry, hd]
      have htail := ih (before ++ [d])
      rw [count_concat, if_pos hd] at htail
      rw [hcons, if_pos hd, List.range'_succ, List.map_cons, ← htail, ← hhead, entriesFrom,
        List.filter_cons_of_pos (by simpa [entry] using hd), List.map_cons]
    · have htail := ih (before ++ [d])
      rw [count_concat, if_neg hd] at htail
      rw [hcons, if_neg hd, entriesFrom, List.filter_cons_of_neg (by simpa [entry] using hd)]
      exact htail

/-- No place is further away than there are declarations. -/
theorem offset_of_mem (before : List DeclaredAt) {ds : List DeclaredAt} {x : Symbol × Entry}
    (hx : x ∈ entriesFrom kind before ds) :
    ∃ slot, ∃ i < before.length + ds.length, x.2.offset = Block.place kind slot i := by
  induction ds generalizing before with
  | nil => cases hx
  | cons d ds ih =>
    rcases List.mem_cons.1 hx with rfl | hx
    · have := count_le_length d.kind.takesSlot before
      exact ⟨_, _, by rw [List.length_cons]; omega, rfl⟩
    · obtain ⟨slot, i, hi, hoffset⟩ := ih (before ++ [d]) hx
      simp only [List.length_append, List.length_cons, List.length_nil] at hi
      exact ⟨slot, i, by rw [List.length_cons]; omega, hoffset⟩

/-- The first entry of a name is that of its first declaration. -/
theorem find?_entriesFrom (before ds : List DeclaredAt) (name : Symbol) :
    ((entriesFrom kind before ds).find? (·.1 = name)).map (·.2) =
      (ds.find? (·.name = name)).map (entry kind (before ++ ds.takeWhile (·.name ≠ name))) := by
  induction ds generalizing before with
  | nil => rfl
  | cons d ds ih =>
    rw [entriesFrom]
    by_cases hd : d.name = name
    · simp [hd]
    · simpa [hd] using ih (before ++ [d])

/-! ## Scopes -/

theorem get?_scope (o : OpenScope) (name : Symbol) : o.scope.get? name = o.meaning? name :=
  find?_entriesFrom [] o.declared name

theorem get?_eq_none {name : Symbol} : o.scope.get? name = none ↔ ¬o.Has name := by
  simp [get?_scope, meaning?, Has]

/-- In the scope a declaration is made just if it is taken. -/
theorem scope_declare (o : OpenScope) (d : DeclaredAt) :
    o.scope.declare d.name d.depth d.ty d.kind =
      if o.Has d.name then none else some (entry o.kind o.declared d, (o.declare d).scope) := by
  by_cases hd : o.Has d.name
  · rw [if_pos hd]
    apply Scope.declare_taken
    rwa [Ne, get?_eq_none, not_not]
  · have hnext : o.scope.nextOffset d.kind = (entry o.kind o.declared d).offset := by
      unfold Scope.nextOffset entry
      cases d.kind.takesSlot <;> rfl
    rw [if_neg hd, Scope.declare_free (get?_eq_none.2 hd), hnext, declare, if_neg hd]
    simp only [scope, Option.some.injEq, Prod.mk.injEq, Scope.mk.injEq, true_and]
    refine ⟨rfl, by simp [entriesFrom_concat, entry], ?_, ?_⟩ <;>
      cases h : d.kind.takesSlot <;> simp [h, Block.place] <;> omega

/-- No name is declared twice. -/
def Distinct (o : OpenScope) : Prop := (o.declared.map (·.name)).Nodup

theorem Distinct.declare (h : o.Distinct) (d : DeclaredAt) : (o.declare d).Distinct := by
  unfold OpenScope.declare
  split
  · exact h
  · rename_i hd
    rw [Distinct, List.map_append, List.nodup_append]
    refine ⟨h, List.nodup_singleton _, ?_⟩
    rintro name hname name' hname' rfl
    obtain ⟨d', hd', rfl⟩ := List.mem_map.1 hname
    exact hd ⟨d', hd', List.mem_singleton.1 hname'⟩

end OpenScope

namespace Scope

/-- In a scope the places of each sort lie one behind the other, in the order of declaration, and neither two names nor two
places are the same. The places of fewer than 2³¹ declarations have 32 bits. -/
structure LaidOut (s : Scope) : Prop where
  offsets : ∀ slot, (s.entries.filter (·.2.kind.takesSlot == slot)).map (·.2.offset) =
    (List.range (s.entries.countP (·.2.kind.takesSlot == slot))).map (Block.place s.kind slot)
  names : (s.entries.map (·.1)).Nodup
  apart : (s.entries.map (·.2.offset)).Nodup
  narrow : s.size < 2147483648 → ∀ x ∈ s.entries, -2147483648 ≤ x.2.offset ∧ x.2.offset < 2147483648

theorem place_injective (kind : ScopeKind) (slot : Bool) : Function.Injective (Block.place kind slot) := by
  intro i j h
  unfold Block.place at h
  split at h <;> omega

/-- Slots lie above, the others below. -/
theorem place_nonneg_iff {kind : ScopeKind} {slot : Bool} {i : Nat} : 0 ≤ Block.place kind slot i ↔ slot = true := by
  unfold Block.place Block.firstSlot Block.firstPlace
  cases slot <;> cases kind <;> simp <;> omega

theorem place_narrow {kind : ScopeKind} {slot : Bool} {i : Nat} (hi : i + 1 < 2147483648) :
    -2147483648 ≤ Block.place kind slot i ∧ Block.place kind slot i < 2147483648 := by
  unfold Block.place Block.firstSlot Block.firstPlace
  cases slot <;> cases kind <;> simp <;> omega

/-- The two sorts have no place in common. -/
theorem nodup_offsets {s : Scope} (h : ∀ slot, (s.entries.filter (·.2.kind.takesSlot == slot)).map (·.2.offset) =
    (List.range (s.entries.countP (·.2.kind.takesSlot == slot))).map (Block.place s.kind slot)) :
    (s.entries.map (·.2.offset)).Nodup := by
  have hsort : ∀ slot, ((s.entries.filter (·.2.kind.takesSlot == slot)).map (·.2.offset)).Nodup := by
    intro slot
    rw [h slot]
    exact List.nodup_range.map (place_injective s.kind slot)
  have hplace : ∀ slot, ∀ z ∈ (s.entries.filter (·.2.kind.takesSlot == slot)).map (·.2.offset), 0 ≤ z ↔ slot = true := by
    intro slot z hz
    rw [h slot] at hz
    obtain ⟨i, -, rfl⟩ := List.mem_map.1 hz
    exact place_nonneg_iff
  have hparts : (s.entries.filter (·.2.kind.takesSlot == true) ++ s.entries.filter (·.2.kind.takesSlot == false)).Perm
      s.entries := by
    simpa using List.filter_append_perm (·.2.kind.takesSlot) s.entries
  apply (hparts.map (·.2.offset)).nodup_iff.1
  rw [List.map_append, List.nodup_append]
  refine ⟨hsort true, hsort false, ?_⟩
  rintro z hz z' hz' rfl
  have := (hplace true z hz).2 rfl
  exact Bool.false_ne_true ((hplace false z hz').1 this)

end Scope

theorem OpenScope.Distinct.laidOut {o : OpenScope} (h : o.Distinct) : o.scope.LaidOut := by
  have hcount : ∀ slot, (entriesFrom o.kind [] o.declared).countP (·.2.kind.takesSlot == slot) = count slot o.declared := by
    intro slot
    conv_rhs => rw [← map_entriesFrom o.kind [] o.declared, count, List.countP_map]
    rfl
  have hoffsets : ∀ slot, (o.scope.entries.filter (·.2.kind.takesSlot == slot)).map (·.2.offset) =
      (List.range (o.scope.entries.countP (·.2.kind.takesSlot == slot))).map (Block.place o.scope.kind slot) := by
    intro slot
    rw [List.range_eq_range']
    exact (offsets_entriesFrom slot [] o.declared).trans (by rw [count_nil, ← hcount slot]; rfl)
  refine ⟨hoffsets, ?_, Scope.nodup_offsets hoffsets, fun hsize x hx => ?_⟩
  · have hnames : o.scope.entries.map (·.1) = o.declared.map (·.name) := by
      conv_rhs => rw [← map_entriesFrom o.kind [] o.declared, List.map_map]
      rfl
    rw [hnames]
    exact h
  · have hlength : o.scope.size = o.declared.length := by
      conv_rhs => rw [← map_entriesFrom o.kind [] o.declared, List.length_map]
      rfl
    obtain ⟨slot, i, hi, hoffset⟩ := offset_of_mem [] hx
    rw [hlength] at hsize
    rw [hoffset]
    apply Scope.place_narrow
    simp only [List.length_nil] at hi
    omega

namespace Scopes

/-! ## The stack -/

/-- The stack after an action holds what has been taken then. -/
theorem act_eq (os : List OpenScope) (x : Action) :
    act ⟨os.map OpenScope.scope⟩ x = ⟨(OpenScope.act os x).map OpenScope.scope⟩ := by
  cases x with
  | push kind =>
    have hempty : (OpenScope.mk kind []).scope = .empty kind := by
      cases kind <;> rfl
    simp [act, push, OpenScope.act, hempty]
  | pop => simp [act, pop, OpenScope.act]
  | declare d =>
    cases os with
    | nil => rfl
    | cons o os =>
      simp only [act, declare, OpenScope.act, List.map_cons, OpenScope.scope_declare]
      by_cases hd : o.Has d.name
      · simp [hd, OpenScope.declare]
      · simp [hd]

/-- **The stack holds what has been taken.** -/
theorem run_eq (actions : List Action) : run .empty actions = ⟨(OpenScope.opened actions).map OpenScope.scope⟩ := by
  unfold run OpenScope.opened
  induction actions using List.reverseRecOn with
  | nil => rfl
  | append_singleton actions x ih => rw [List.foldl_concat, List.foldl_concat, ih, act_eq]

theorem distinct_act {os : List OpenScope} (h : ∀ o ∈ os, o.Distinct) (x : Action) :
    ∀ o ∈ OpenScope.act os x, o.Distinct := by
  intro o ho
  cases x with
  | push kind =>
    rcases List.mem_cons.1 ho with rfl | ho
    · exact List.nodup_nil
    · exact h o ho
  | pop => exact h o (List.mem_of_mem_tail ho)
  | declare d =>
    cases os with
    | nil => cases ho
    | cons o' os =>
      rcases List.mem_cons.1 ho with rfl | ho
      · exact (h o' List.mem_cons_self).declare d
      · exact h o (List.mem_cons_of_mem o' ho)

theorem distinct_opened (actions : List Action) : ∀ o ∈ OpenScope.opened actions, o.Distinct := by
  unfold OpenScope.opened
  induction actions using List.reverseRecOn with
  | nil => simp
  | append_singleton actions x ih =>
    rw [List.foldl_concat]
    exact distinct_act ih x

/-! ## Balanced blocks -/

/-- How many scopes of a block are open after an action, which must leave alone the scopes around the block. -/
def Action.level? : Nat → Action → Option Nat
  | n, .push _ => some (n + 1)
  | n + 1, .pop => some n
  | n + 1, .declare _ => some (n + 1)
  | 0, .pop | 0, .declare _ => none

/-- The block closes just the scopes that it opens, and declares inside them only. -/
def Balanced (block : List Action) : Prop := block.foldlM Action.level? 0 = some 0

instance (block : List Action) : Decidable (Balanced block) := inferInstanceAs (Decidable (_ = _))

/-- An action inside a block changes scopes of the block only. -/
theorem act_inside {n m : Nat} {x : Action} (h : x.level? n = some m) {inner : List Scope} (hn : inner.length = n)
    (outer : List Scope) : ∃ inner' : List Scope, inner'.length = m ∧ act ⟨inner ++ outer⟩ x = ⟨inner' ++ outer⟩ := by
  cases x with
  | push kind =>
    cases h
    exact ⟨.empty kind :: inner, by simp [hn], rfl⟩
  | pop =>
    cases inner with
    | nil => cases hn; cases h
    | cons s inner =>
      cases hn
      cases h
      exact ⟨inner, rfl, rfl⟩
  | declare d =>
    cases inner with
    | nil => cases hn; cases h
    | cons s inner =>
      cases hn
      cases h
      cases hs : s.declare d.name d.depth d.ty d.kind with
      | none => exact ⟨s :: inner, rfl, by simp [act, declare, hs]⟩
      | some r => exact ⟨r.2 :: inner, rfl, by simp [act, declare, hs]⟩

/-- So do the actions of a block. -/
theorem run_inside {actions : List Action} {n m : Nat} (h : actions.foldlM Action.level? n = some m)
    {inner : List Scope} (hn : inner.length = n) (outer : List Scope) :
    ∃ inner' : List Scope, inner'.length = m ∧ run ⟨inner ++ outer⟩ actions = ⟨inner' ++ outer⟩ := by
  induction actions generalizing n inner with
  | nil =>
    cases h
    exact ⟨inner, hn, rfl⟩
  | cons x actions ih =>
    rw [List.foldlM_cons, Option.bind_eq_bind, Option.bind_eq_some_iff] at h
    obtain ⟨k, hx, hrest⟩ := h
    obtain ⟨between, hk, hact⟩ := act_inside hx hn outer
    obtain ⟨inner', hm, hrun⟩ := ih hrest hk
    exact ⟨inner', hm, by rw [run, List.foldl_cons, hact]; exact hrun⟩

/-- **A balanced block leaves no trace.** -/
theorem run_balanced (s : Scopes) {block : List Action} (h : Balanced block) : s.run block = s := by
  have hnone : ([] : List Scope).length = 0 := rfl
  obtain ⟨inner, hlength, hrun⟩ := run_inside h hnone s.stack
  rw [List.length_eq_zero_iff.1 hlength] at hrun
  exact hrun

/-! ## The main result -/

theorem lookup?_run (actions : List Action) (name : Symbol) :
    (run .empty actions).lookup? name = (OpenScope.opened actions).findSome? (·.meaning? name) := by
  rw [run_eq, lookup?, List.findSome?_map]
  congr 1
  funext o
  exact o.get?_scope name

/-- A declaration is refused just if no scope is open or its name is taken in the innermost one. -/
theorem declare_run (actions : List Action) (d : DeclaredAt) :
    (run .empty actions).declare d.name d.depth d.ty d.kind = none ↔
      ∀ o ∈ (OpenScope.opened actions).head?, o.Has d.name := by
  rw [run_eq]
  cases OpenScope.opened actions with
  | nil => simp [declare]
  | cons o os => by_cases hd : o.Has d.name <;> simp [declare, OpenScope.scope_declare, hd]

/-- What was declared is found. -/
theorem lookup?_declare {s s' : Scopes} {d : DeclaredAt} {entry : Entry}
    (h : s.declare d.name d.depth d.ty d.kind = some (entry, s')) : s'.lookup? d.name = some entry := by
  unfold declare at h
  split at h
  · cases h
  · obtain ⟨⟨entry, inner⟩, hdeclare, heq⟩ := Option.map_eq_some_iff.1 h
    cases heq
    rw [lookup?, List.findSome?_cons, Scope.get?_declare hdeclare, if_pos rfl]

/-- **Scopes hand out places that do not collide, and restore what they shade.** Whatever has been done to the open scopes:
their entries are those of the declarations that each of them has taken, in that order; in each of them the places of slots
lie one above the other, those of the others one below the other; a name means the first declaration of it in the innermost
scope that has one; a declaration is refused if its name is taken there, which changes nothing, and is found otherwise; and
a block that works inside its own scopes only leaves all as it was. -/
theorem run_laidOut (actions : List Action) :
    List.Forall₂ (fun s o => s.kind = o.kind ∧
        s.entries.map (fun x => (⟨⟨x.1, x.2.kind, x.2.ty⟩, x.2.depth⟩ : DeclaredAt)) = o.declared)
      (run .empty actions).stack (OpenScope.opened actions) ∧
    (∀ s ∈ (run .empty actions).stack, s.LaidOut) ∧
    (∀ name, (run .empty actions).lookup? name = (OpenScope.opened actions).findSome? (·.meaning? name)) ∧
    (∀ d : DeclaredAt, ((run .empty actions).declare d.name d.depth d.ty d.kind = none ↔
        ∀ o ∈ (OpenScope.opened actions).head?, o.Has d.name) ∧
      ((run .empty actions).declare d.name d.depth d.ty d.kind = none →
        run .empty (actions ++ [.declare d]) = run .empty actions) ∧
      ∀ entry s', (run .empty actions).declare d.name d.depth d.ty d.kind = some (entry, s') →
        run .empty (actions ++ [.declare d]) = s' ∧ s'.lookup? d.name = some entry) ∧
    ∀ block, Balanced block → run .empty (actions ++ block) = run .empty actions ∧
      ∀ name, (run .empty (actions ++ block)).lookup? name = (run .empty actions).lookup? name := by
  have hact : ∀ x, run .empty (actions ++ [x]) = act (run .empty actions) x := fun x => run_append .empty actions [x]
  refine ⟨?_, ?_, lookup?_run actions, fun d => ⟨declare_run actions d, ?_, ?_⟩, fun block hblock => ?_⟩
  · rw [run_eq]
    apply List.forall₂_map_left_iff.2
    apply List.forall₂_same.2
    exact fun o _ => ⟨rfl, OpenScope.map_entriesFrom o.kind [] o.declared⟩
  · intro s hs
    rw [run_eq] at hs
    obtain ⟨o, ho, rfl⟩ := List.mem_map.1 hs
    exact (distinct_opened actions o ho).laidOut
  · intro hd
    rw [hact, act, hd]
    rfl
  · intro entry s' hd
    rw [hact, act, hd]
    exact ⟨rfl, lookup?_declare hd⟩
  · have hsame : run .empty (actions ++ block) = run .empty actions := by rw [run_append, run_balanced _ hblock]
    exact ⟨hsame, fun name => by rw [hsame]⟩

/-- A name is declared, and a parameter and the name again inside a function; there it is refused the next time. -/
def shading : List Action :=
  [.push .global, .declare ⟨⟨⟨0⟩, .var, .int⟩, 0⟩, .push .function, .declare ⟨⟨⟨1⟩, .param, .bool⟩, 1⟩,
    .declare ⟨⟨⟨0⟩, .var, .bool⟩, 1⟩, .declare ⟨⟨⟨0⟩, .param, .int⟩, 1⟩]

/-- Behind a class with a field of this name, the name means the variable of the function. -/
theorem run_laidOut_shading : (∀ s ∈ (run .empty shading).stack, s.LaidOut) ∧
    (run .empty (shading ++ [.push (.cls ⟨2⟩), .declare ⟨⟨⟨0⟩, .field, .int⟩, 2⟩, .pop])).lookup? ⟨0⟩ =
      some ⟨.var, 1, -2, .bool⟩ := by
  obtain ⟨-, hlaid, -, -, hbalanced⟩ := run_laidOut shading
  exact ⟨hlaid, ((hbalanced _ (by decide)).2 ⟨0⟩).trans rfl⟩

end Scopes

end Fool
