import Fool.Proofs.Tree.Nesting
import Mathlib.Data.List.Forall2

/-!
# Where expressions and declarations stand

A `Pos` counts expressions and declarations. `Arena.Fill` says which expressions stand between two positions,
`Arena.DeclAt` where a declaration with all its parts does: local declarations, then the body, then the declaration
itself. No place is left out and none is used twice.
-/

namespace Fool

/-- Where one of two lists that are related is cut, so is the other. -/
theorem forall₂_split {α β : Type} {R : α → β → Prop} : ∀ {xs ys : List α} {zs : List β}, List.Forall₂ R (xs ++ ys) zs →
    ∃ front back, List.Forall₂ R xs front ∧ List.Forall₂ R ys back ∧ zs = front ++ back
  | [], _, zs, h => ⟨[], zs, .nil, h, rfl⟩
  | _ :: _, _, _, .cons hx hrest => by
    obtain ⟨front, back, hfront, hback, rfl⟩ := forall₂_split hrest
    exact ⟨_ :: front, back, .cons hx hfront, hback, rfl⟩

/-- A number of expressions and a number of declarations. -/
structure Pos where
  nodes : Nat
  decls : Nat

namespace Arena

/-- The end of everything that has been added. -/
def stop (a : Arena) : Pos := ⟨a.nodes.size, a.decls.size⟩

/-- Things stand one behind the other. -/
def Row {α : Type} (R : Pos → α → Pos → Prop) : Pos → List α → Pos → Prop
  | s, [], t => s = t
  | s, x :: xs, t => ∃ m, R s x m ∧ Row R m xs t

/-- The expressions fill the way from `s` to `t`, each nested at most `k` levels deep. -/
def Fill (a : Arena) (k : Nat) (s : Pos) (es : List ExprRef) (t : Pos) : Prop :=
  a.Tiles s.nodes es t.nodes ∧ t.decls = s.decls ∧ ∀ e ∈ es, a.Nested (fun _ => true) k e

/-- A function stands from `s` to `t`: its local declarations, then its body. -/
def FunctionAt (a : Arena) (k : Nat) (localAt : Pos → DeclRef → Pos → Prop) (s : Pos) (f : Function) (t : Pos) :
    Prop :=
  ∃ m, Row localAt s f.locals m ∧ a.Fill k m [f.body] t

/-- A declaration stands from `s` to `t`, its local declarations nested at most `n - 1` levels deep. -/
def DeclAt (a : Arena) (k : Nat) : Nat → Pos → DeclRef → Pos → Prop
  | 0, _, _, _ => False
  | n + 1, s, d, t => t.decls = d.index + 1 ∧
    match a.decl? d with
    | none => False
    | some (.varDecl v) => a.Fill k s [v.init] ⟨t.nodes, d.index⟩
    | some (.funDecl f) => a.FunctionAt k (a.DeclAt k n) s f ⟨t.nodes, d.index⟩
    | some (.classDecl c) => Row (a.FunctionAt k (a.DeclAt k n)) s c.methods ⟨t.nodes, d.index⟩

/-! ## Rows -/

section Row

variable {α : Type} {R R' : Pos → α → Pos → Prop}

theorem Row.imp : ∀ {xs : List α} {s t : Pos}, (∀ {s t : Pos} {x : α}, x ∈ xs → R s x t → R' s x t) →
    Row R s xs t → Row R' s xs t
  | [], _, _, _, h => h
  | _ :: _, _, _, himp, ⟨m, hx, hrest⟩ =>
    ⟨m, himp List.mem_cons_self hx, hrest.imp fun hx' => himp (List.mem_cons_of_mem _ hx')⟩

/-- What each of the things does not undo, all of them do not. -/
theorem Row.le (f : Pos → Nat) (h : ∀ {s t : Pos} {x : α}, R s x t → f s ≤ f t) : ∀ {xs : List α} {s t : Pos},
    Row R s xs t → f s ≤ f t
  | [], _, _, hr => by cases hr; exact Nat.le_refl _
  | _ :: _, _, _, ⟨_, hx, hrest⟩ => Nat.le_trans (h hx) (hrest.le f h)

/-- Each of the things ends no later than the row. -/
theorem Row.imp_of_le (f : Pos → Nat) (h : ∀ {s t : Pos} {x : α}, R s x t → f s ≤ f t) : ∀ {xs : List α} {s e : Pos},
    (∀ {s t : Pos} {x : α}, f t ≤ f e → R s x t → R' s x t) → Row R s xs e → Row R' s xs e
  | [], _, _, _, hr => hr
  | _ :: _, _, _, himp, ⟨m, hx, hrest⟩ => ⟨m, himp (hrest.le f h) hx, hrest.imp_of_le f h himp⟩

/-- A row is cut at any of its things. -/
theorem Row.split : ∀ {xs : List α} {ys : List α} {s t : Pos}, Row R s (xs ++ ys) t →
    ∃ m, Row R s xs m ∧ Row R m ys t
  | [], _, s, _, h => ⟨s, rfl, h⟩
  | _ :: _, _, _, _, ⟨_, hx, hrest⟩ => by
    obtain ⟨m, h1, h2⟩ := hrest.split
    exact ⟨m, ⟨_, hx, h1⟩, h2⟩

theorem Row.imp_mem : ∀ {xs : List α} {s t : Pos}, Row R s xs t → ∀ {x : α}, x ∈ xs → ∃ s' t', R s' x t'
  | _ :: _, _, _, ⟨_, hx, hrest⟩, y, hy => by
    rcases List.mem_cons.1 hy with rfl | hy
    · exact ⟨_, _, hx⟩
    · exact hrest.imp_mem hy

end Row

/-! ## More is added, and ends -/

variable {a a' : Arena} {k : Nat}

theorem Extends.decl? (h : a.Extends a') {d : DeclRef} {x : Decl} (hx : a.decl? d = some x) : a'.decl? d = some x :=
  h.decls hx

theorem Fill.extends (h : a.Extends a') {s t : Pos} {es : List ExprRef} (hf : a.Fill k s es t) : a'.Fill k s es t :=
  ⟨hf.1.mono h, hf.2.1, fun e he => (hf.2.2 e he).extends h⟩

theorem Fill.append {s m t : Pos} {es fs : List ExprRef} (h : a.Fill k s es m) (h' : a.Fill k m fs t) :
    a.Fill k s (es ++ fs) t := by
  refine ⟨h.1.append h'.1, h'.2.1.trans h.2.1, fun e he => ?_⟩
  rcases List.mem_append.1 he with he | he
  · exact h.2.2 e he
  · exact h'.2.2 e he

theorem Fill.mono {k' : Nat} (hle : k ≤ k') {s t : Pos} {es : List ExprRef} (h : a.Fill k s es t) :
    a.Fill k' s es t :=
  ⟨h.1, h.2.1, fun e he => (h.2.2 e he).mono hle⟩

theorem FunctionAt.imp {R R' : Pos → DeclRef → Pos → Prop} (h : a.Extends a') {s t : Pos} {f : Function}
    (himp : ∀ {s t : Pos} {d : DeclRef}, d ∈ f.locals → R s d t → R' s d t) (hf : a.FunctionAt k R s f t) :
    a'.FunctionAt k R' s f t := by
  obtain ⟨m, hl, hb⟩ := hf
  exact ⟨m, hl.imp himp, hb.extends h⟩

theorem DeclAt.extends (h : a.Extends a') : ∀ {n : Nat} {s t : Pos} {d : DeclRef}, a.DeclAt k n s d t →
    a'.DeclAt k n s d t := by
  intro n
  induction n with
  | zero => intro _ _ _ hd; exact hd
  | succ n ih =>
    rintro s t d ⟨ht, hd⟩
    refine ⟨ht, ?_⟩
    cases hx : a.decl? d with
    | none => rw [hx] at hd; exact hd.elim
    | some x =>
      rw [hx] at hd
      rw [h.decl? hx]
      cases x with
      | varDecl v => exact Fill.extends h hd
      | funDecl f => exact FunctionAt.imp h (fun _ => ih) hd
      | classDecl c => exact Row.imp (fun _ => FunctionAt.imp h fun _ => ih) hd

theorem Fill.nodes_le {s t : Pos} {es : List ExprRef} (h : a.Fill k s es t) : s.nodes ≤ t.nodes := h.1.le

theorem FunctionAt.le {R : Pos → DeclRef → Pos → Prop} {s t : Pos} {f : Function} (hf : a.FunctionAt k R s f t)
    (h : ∀ {s t : Pos} {d : DeclRef}, R s d t → s.nodes ≤ t.nodes ∧ s.decls ≤ t.decls) :
    s.nodes ≤ t.nodes ∧ s.decls ≤ t.decls := by
  obtain ⟨m, hl, hb⟩ := hf
  have h1 := hl.le Pos.nodes fun hx => (h hx).1
  have h2 := hl.le Pos.decls fun hx => (h hx).2
  exact ⟨Nat.le_trans h1 hb.nodes_le, by rw [hb.2.1]; exact h2⟩

section Parts

variable {n : Nat} {s t : Pos} {d : DeclRef}

theorem DeclAt.exists_decl? (h : a.DeclAt k (n + 1) s d t) : ∃ x, a.decl? d = some x := by
  cases hx : a.decl? d with
  | none => obtain ⟨-, hd⟩ := h; rw [hx] at hd; exact hd.elim
  | some x => exact ⟨x, rfl⟩

theorem DeclAt.var (h : a.DeclAt k (n + 1) s d t) {v : Variable} (hx : a.decl? d = some (.varDecl v)) :
    a.Fill k s [v.init] ⟨t.nodes, d.index⟩ := by
  obtain ⟨-, hd⟩ := h
  rw [hx] at hd
  exact hd

theorem DeclAt.function (h : a.DeclAt k (n + 1) s d t) {f : Function} (hx : a.decl? d = some (.funDecl f)) :
    a.FunctionAt k (a.DeclAt k n) s f ⟨t.nodes, d.index⟩ := by
  obtain ⟨-, hd⟩ := h
  rw [hx] at hd
  exact hd

theorem DeclAt.methods (h : a.DeclAt k (n + 1) s d t) {c : Class} (hx : a.decl? d = some (.classDecl c)) :
    Row (a.FunctionAt k (a.DeclAt k n)) s c.methods ⟨t.nodes, d.index⟩ := by
  obtain ⟨-, hd⟩ := h
  rw [hx] at hd
  exact hd

end Parts

theorem DeclAt.le : ∀ {n : Nat} {s t : Pos} {d : DeclRef}, a.DeclAt k n s d t →
    s.nodes ≤ t.nodes ∧ s.decls ≤ d.index ∧ t.decls = d.index + 1 := by
  intro n
  induction n with
  | zero => intro _ _ _ hd; exact hd.elim
  | succ n ih =>
    rintro s t d ⟨ht, hd⟩
    have hloc : ∀ {s t : Pos} {d : DeclRef}, a.DeclAt k n s d t → s.nodes ≤ t.nodes ∧ s.decls ≤ t.decls :=
      fun hd => ⟨(ih hd).1, by have := ih hd; omega⟩
    cases hx : a.decl? d with
    | none => rw [hx] at hd; exact hd.elim
    | some x =>
      rw [hx] at hd
      cases x with
      | varDecl v => exact ⟨hd.nodes_le, Nat.le_of_eq hd.2.1.symm, ht⟩
      | funDecl f =>
        have := FunctionAt.le hd hloc
        exact ⟨this.1, this.2, ht⟩
      | classDecl c =>
        have h1 := Row.le Pos.nodes (fun hf => (FunctionAt.le hf hloc).1) hd
        have h2 := Row.le Pos.decls (fun hf => (FunctionAt.le hf hloc).2) hd
        exact ⟨h1, h2, ht⟩

theorem Row.decls_nodes_le {n : Nat} {ds : List DeclRef} {s t : Pos} (h : Row (a.DeclAt k n) s ds t) :
    s.nodes ≤ t.nodes :=
  h.le Pos.nodes fun hd => hd.le.1

theorem DeclAt.decls_le {n : Nat} {s t : Pos} {d : DeclRef} (h : a.DeclAt k n s d t) : s.decls ≤ t.decls := by
  have := h.le
  omega

theorem FunctionAt.nodes_le {n : Nat} {f : Function} {s t : Pos} (h : a.FunctionAt k (a.DeclAt k n) s f t) :
    s.nodes ≤ t.nodes :=
  (h.le fun hd => ⟨hd.le.1, hd.decls_le⟩).1

theorem Row.functions_le {n : Nat} {fs : List Function} {s t : Pos}
    (h : Row (a.FunctionAt k (a.DeclAt k n)) s fs t) : s.nodes ≤ t.nodes :=
  h.le Pos.nodes FunctionAt.nodes_le

/-- In a row of declarations none has a number beyond the end. -/
theorem index_lt_of_row {n : Nat} : ∀ {ds : List DeclRef} {s t : Pos}, Row (a.DeclAt k n) s ds t → ∀ {d : DeclRef},
    d ∈ ds → d.index < t.decls
  | d' :: ds, _, _, ⟨m, hx, hrest⟩, d, hd => by
    have hle := hrest.le Pos.decls DeclAt.decls_le
    rcases List.mem_cons.1 hd with rfl | hd
    · have := hx.le; omega
    · exact index_lt_of_row hrest hd

/-- Local declarations have smaller numbers, so no path of them is longer than the number it starts from. -/
theorem DeclAt.of_lt : ∀ {n m : Nat} {s t : Pos} {d : DeclRef}, a.DeclAt k n s d t → d.index < m →
    a.DeclAt k m s d t := by
  intro n
  induction n with
  | zero => intro _ _ _ _ hd; exact hd.elim
  | succ n ih =>
    rintro m s t d ⟨ht, hd⟩ hlt
    obtain ⟨m, rfl⟩ : ∃ j, m = j + 1 := ⟨m - 1, by omega⟩
    refine ⟨ht, ?_⟩
    have hfun : ∀ {s t : Pos} {f : Function}, t.decls ≤ d.index → a.FunctionAt k (a.DeclAt k n) s f t →
        a.FunctionAt k (a.DeclAt k m) s f t := by
      rintro s t f hle ⟨p, hl, hb⟩
      refine ⟨p, hl.imp fun hd' hx => ih hx ?_, hb⟩
      have := index_lt_of_row hl hd'
      have := hb.2.1
      omega
    cases hx : a.decl? d with
    | none => rw [hx] at hd; exact hd.elim
    | some x =>
      rw [hx] at hd
      cases x with
      | varDecl v => exact hd
      | funDecl f => exact hfun (Nat.le_refl _) hd
      | classDecl c =>
        refine Row.imp_of_le Pos.decls (fun hf => (FunctionAt.le hf fun hd' => ⟨hd'.le.1, hd'.decls_le⟩).2) ?_ hd
        exact fun hle hf => hfun hle hf

end Arena

end Fool
