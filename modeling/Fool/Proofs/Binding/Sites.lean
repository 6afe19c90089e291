import Fool.Proofs.Binding.Context
import Fool.Proofs.Parse.Decls

/-!
# Every expression has its place

In a program that has been read every expression stands at a site of some context, unless it is part of a class that
is not declared at the outermost level (`site_or_misplaced`): the regions and their expressions fill the arena.
-/

namespace Fool

/-- One position is not behind another. -/
def Pos.Before (s t : Pos) : Prop := s.nodes ≤ t.nodes ∧ s.decls ≤ t.decls

namespace Pos

variable {s q t : Pos}

theorem Before.refl (s : Pos) : s.Before s := ⟨Nat.le_refl _, Nat.le_refl _⟩

theorem Before.trans (h : s.Before q) (h' : q.Before t) : s.Before t := ⟨Nat.le_trans h.1 h'.1, Nat.le_trans h.2 h'.2⟩

end Pos

namespace Arena

variable {α : Type} {R : Pos → α → Pos → Prop} {a : Arena} {k : Nat} {e w : ExprRef} {d : DeclRef}

theorem Fill.before {s t : Pos} {es : List ExprRef} (h : a.Fill k s es t) : s.Before t :=
  ⟨h.nodes_le, Nat.le_of_eq h.2.1.symm⟩

theorem DeclAt.before {n : Nat} {s t : Pos} (h : a.DeclAt k n s d t) : s.Before t := ⟨h.le.1, h.decls_le⟩

theorem FunctionAt.before {n : Nat} {s t : Pos} {f : Function} (h : a.FunctionAt k (a.DeclAt k n) s f t) : s.Before t :=
  h.le fun hd => hd.before

theorem Row.before (hR : ∀ {s t x}, R s x t → s.Before t) {xs : List α} {s t : Pos} (h : Row R s xs t) : s.Before t :=
  ⟨h.le Pos.nodes fun hx => (hR hx).1, h.le Pos.decls fun hx => (hR hx).2⟩

/-- A thing in a row stands between the ends of the row. -/
theorem Row.of_mem (hR : ∀ {s t x}, R s x t → s.Before t) : ∀ {xs : List α} {x : α} {s t : Pos}, Row R s xs t → x ∈ xs →
    ∃ s' t', R s' x t' ∧ s.Before s' ∧ t'.Before t
  | x :: xs, y, s, t, ⟨m, hx, hrest⟩, hy => by
    rcases List.mem_cons.1 hy with rfl | hy
    · exact ⟨s, m, hx, .refl s, hrest.before hR⟩
    · obtain ⟨s', t', hy, hs, ht⟩ := hrest.of_mem hR hy
      exact ⟨s', t', hy, (hR hx).trans hs, ht⟩

/-- The end of a function and of the methods of a class, in front of the declaration itself. -/
theorem DeclAt.before_end {n : Nat} {s t : Pos} (h : a.DeclAt k n s d t) : Pos.Before ⟨t.nodes, d.index⟩ t := by
  have := h.le
  exact ⟨Nat.le_refl _, by dsimp only; omega⟩

/-- The expression has its number between the two positions. -/
def Between (s : Pos) (e : ExprRef) (t : Pos) : Prop := s.nodes ≤ e.index ∧ e.index < t.nodes

/-- In a row of things an expression stands in one of them. -/
theorem Row.find : ∀ {xs : List α} {s t : Pos}, Row R s xs t → Between s e t →
    ∃ xs₁ x xs₂ s' t', xs = xs₁ ++ x :: xs₂ ∧ R s' x t' ∧ Between s' e t'
  | [], s, t, h, he => by
    cases h
    exact absurd he.1 (by have := he.2; omega)
  | x :: xs, s, t, ⟨m, hx, hrest⟩, he => by
    by_cases hm : e.index < m.nodes
    · exact ⟨[], x, xs, s, m, rfl, hx, he.1, hm⟩
    · obtain ⟨xs₁, y, xs₂, s', t', rfl, hy, hbetween⟩ := hrest.find ⟨Nat.le_of_not_lt hm, he.2⟩
      exact ⟨x :: xs₁, y, xs₂, s', t', rfl, hy, hbetween⟩

/-- Between the ends of a whole expression stands what is below it. -/
theorem Fill.mem_walk (hpost : a.Postordered) {s t : Pos} {whole : ExprRef} (h : a.Fill k s [whole] t)
    (he : Between s e t) : e ∈ a.walk whole := by
  obtain ⟨⟨hf, hlt, hend⟩, -, -⟩ := h
  simp only [Tiles] at hend
  obtain ⟨h1, h2⟩ := he
  exact (hpost.mem_walk hlt).2 (by omega)

/-- In a function an expression stands in a local declaration or in the body. -/
theorem FunctionAt.find {s t : Pos} {f : Function} {L : Pos → DeclRef → Pos → Prop} (hpost : a.Postordered)
    (h : a.FunctionAt k L s f t) (he : Between s e t) :
    (∃ q, Row L s f.locals q ∧ Between s e q) ∨ e ∈ a.walk f.body := by
  obtain ⟨q, hloc, hbody⟩ := h
  by_cases hq : e.index < q.nodes
  · exact Or.inl ⟨q, hloc, he.1, hq⟩
  · exact Or.inr (hbody.mem_walk hpost ⟨Nat.le_of_not_lt hq, he.2⟩)

/-- What stands inside a declaration is part of one of its whole expressions. -/
theorem DeclAt.whole (hpost : a.Postordered) : ∀ {n : Nat} {s t : Pos} {d : DeclRef}, a.DeclAt k n s d t →
    Between s e t → ∃ w, a.WholeOf d w ∧ e ∈ a.walk w := by
  intro n
  induction n with
  | zero => intro _ _ _ hd; exact hd.elim
  | succ n ih =>
    intro s t d hd he
    obtain ⟨x, hx⟩ := hd.exists_decl?
    cases x with
    | varDecl v => exact ⟨v.init, .init hx, (hd.var hx).mem_walk hpost he⟩
    | funDecl f =>
      rcases (hd.function hx).find hpost he with ⟨q, hrow, hin⟩ | hbody
      · obtain ⟨ds, d', ds', s', t', heq, hd', hin'⟩ := hrow.find hin
        obtain ⟨w, hw, hmem⟩ := ih hd' hin'
        exact ⟨w, .inner hx (heq ▸ List.mem_append_right _ List.mem_cons_self) hw, hmem⟩
      · exact ⟨f.body, .body hx, hbody⟩
    | classDecl c =>
      obtain ⟨ms, m, ms', s', t', heq, hm, hin⟩ := (hd.methods hx).find he
      have hmethod : m ∈ c.methods := heq ▸ List.mem_append_right _ List.mem_cons_self
      rcases hm.find hpost hin with ⟨q, hrow, hin'⟩ | hbody
      · obtain ⟨ds, d', ds', s', t', hds, hd', hin''⟩ := hrow.find hin'
        obtain ⟨w, hw, hmem⟩ := ih hd' hin''
        exact ⟨w, .methodInner hx hmethod (hds ▸ List.mem_append_right _ List.mem_cons_self) hw, hmem⟩
      · exact ⟨m.body, .methodBody hx hmethod, hbody⟩

/-- The whole expressions of a declaration fill their part of the way between its ends. -/
theorem DeclAt.fill (hw : a.WholeOf d w) : ∀ {n : Nat} {s t : Pos}, a.DeclAt k n s d t →
    ∃ s' t', a.Fill k s' [w] t' ∧ s.Before s' ∧ t'.Before t := by
  induction hw with
  | init hx =>
    intro n s t hd
    cases n with
    | zero => exact hd.elim
    | succ n => exact ⟨s, _, hd.var hx, .refl s, hd.before_end⟩
  | body hx =>
    intro n s t hd
    cases n with
    | zero => exact hd.elim
    | succ n =>
      obtain ⟨q, hlocals, hbody⟩ := hd.function hx
      exact ⟨q, _, hbody, hlocals.before fun h => h.before, hd.before_end⟩
  | inner hx hmem _ ih =>
    intro n s t hd
    cases n with
    | zero => exact hd.elim
    | succ n =>
      obtain ⟨q, hlocals, hbody⟩ := hd.function hx
      obtain ⟨s', t', hat, hs, ht⟩ := hlocals.of_mem (fun h => h.before) hmem
      obtain ⟨s'', t'', hfill, hs', ht'⟩ := ih hat
      exact ⟨s'', t'', hfill, hs.trans hs', ((ht'.trans ht).trans hbody.before).trans hd.before_end⟩
  | methodBody hx hm =>
    intro n s t hd
    cases n with
    | zero => exact hd.elim
    | succ n =>
      obtain ⟨s', t', ⟨q, hlocals, hbody⟩, hs, ht⟩ := (hd.methods hx).of_mem (fun h => h.before) hm
      exact ⟨q, _, hbody, hs.trans (hlocals.before fun h => h.before), ht.trans hd.before_end⟩
  | methodInner hx hm hmem _ ih =>
    intro n s t hd
    cases n with
    | zero => exact hd.elim
    | succ n =>
      obtain ⟨s', t', ⟨q, hlocals, hbody⟩, hs, ht⟩ := (hd.methods hx).of_mem (fun h => h.before) hm
      obtain ⟨s'', t'', hat, hs', ht'⟩ := hlocals.of_mem (fun h => h.before) hmem
      obtain ⟨s₃, t₃, hfill, hs₃, ht₃⟩ := ih hat
      exact ⟨s₃, t₃, hfill, (hs.trans hs').trans hs₃, (((ht₃.trans ht').trans hbody.before).trans ht).trans hd.before_end⟩

end Arena

namespace Program

open Arena

variable {p : Program} {k : Nat} {e : ExprRef}

/-- What stands in a region has a site, or it is part of a misplaced class. -/
theorem Region.site_or_misplaced (hpost : p.arena.Postordered) : ∀ {n : Nat} {Γ : Context} {ds : List DeclRef}
    {body : ExprRef} {s q : Pos}, p.Region Γ ds body → Row (p.arena.DeclAt k n) s ds q → Between s e q →
    (∃ Γ', p.Site Γ' e) ∨ p.Misplaced e := by
  intro n
  induction n with
  | zero =>
    intro Γ ds body s q hr hrow he
    obtain ⟨_, _, _, _, _, _, hd, _⟩ := hrow.find he
    exact hd.elim
  | succ n ih =>
    intro Γ ds body s q hr hrow he
    obtain ⟨ds₁, d, ds₂, s', t', rfl, hd, hin⟩ := hrow.find he
    obtain ⟨x, hx⟩ := hd.exists_decl?
    cases x with
    | varDecl v => exact Or.inl ⟨_, .init hr hx ((hd.var hx).mem_walk hpost hin)⟩
    | funDecl f =>
      have hr' := Region.function hr hx
      rcases (hd.function hx).find hpost hin with ⟨q', hrow', hin'⟩ | hbody
      · exact ih hr' hrow' hin'
      · exact Or.inl ⟨_, .body hr' hbody⟩
    | classDecl c =>
      by_cases hdepth : Γ.depth = 0
      · obtain ⟨ms, m, ms', s₁, t₁, hms, hm, hin'⟩ := (hd.methods hx).find hin
        have hr' := Region.method hr hx hdepth hms
        rcases hm.find hpost hin' with ⟨q', hrow', hin''⟩ | hbody
        · exact ih hr' hrow' hin''
        · exact Or.inl ⟨_, .body hr' hbody⟩
      · have hmem : d ∈ ds₁ ++ d :: ds₂ := List.mem_append_right _ List.mem_cons_self
        obtain ⟨w, hw, hin'⟩ := hd.whole hpost hin
        exact Or.inr ⟨Γ, _, body, d, c, w, hr, hmem, hx, hdepth, hw, hin'⟩

/-- No whole expression of a program that has been read is nested deeper than the parser reads. -/
theorem Placed.nested (h : p.Placed) {w : ExprRef} (hw : p.Whole w) :
    p.arena.Nested (fun _ => true) Grammar.nestingBound w := by
  obtain ⟨q, hrow, hbody⟩ := h.row
  rcases hw with rfl | ⟨d, hd, hw⟩
  · exact hbody.2.2 _ List.mem_cons_self
  · obtain ⟨s', t', hat⟩ := hrow.imp_mem hd
    obtain ⟨_, _, ⟨-, -, hnested⟩, -⟩ := DeclAt.fill hw hat
    exact hnested w List.mem_cons_self

/-- **Every expression of a program that has been read stands at a site or in a misplaced class.** -/
theorem Placed.site_or_misplaced (h : p.Placed) (he : e.index < p.arena.nodes.size) :
    (∃ Γ, p.Site Γ e) ∨ p.Misplaced e := by
  obtain ⟨q, hrow, hfill⟩ := h.row
  by_cases hq : e.index < q.nodes
  · exact Region.site_or_misplaced h.postordered .main hrow ⟨Nat.zero_le _, hq⟩
  · exact Or.inl ⟨_, .body .main (hfill.mem_walk h.postordered ⟨Nat.le_of_not_lt hq, he⟩)⟩

end Program

end Fool
