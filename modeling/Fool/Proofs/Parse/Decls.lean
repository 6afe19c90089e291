import Fool.Proofs.Parse.Exprs

/-!
# Reading declarations and programs builds trees

`Placed n s ds s'` says that between the states `s` and `s'` exactly the declarations `ds` have been added, with all
their parts. For a program that has been read everything in the arena belongs to it, each part to one place
(`Program.Placed`, `placed_of_parse`).
-/

namespace Fool

namespace Grammar

open Fool.Parser

variable {s s₁ s' : Parser}

/-- Exactly these declarations have been added, with all their parts. -/
structure Placed (n : Nat) (s : Parser) (ds : List DeclRef) (s' : Parser) : Prop where
  grown : s.arena.Extends s'.arena
  postordered : s'.arena.Postordered
  row : Arena.Row (s'.arena.DeclAt nestingBound n) s.arena.stop ds s'.arena.stop

theorem Placed.of_same {n : Nat} (hs : s.arena.Postordered) (h : Same s s') : Placed n s [] s' where
  grown := by rw [h.arena]; exact .refl _
  postordered := same_postordered hs h
  row := by rw [h.arena]; rfl

theorem Placed.cons {n : Nat} {d : DeclRef} {ds : List DeclRef} (h : Placed n s [d] s₁) (h' : Placed n s₁ ds s') :
    Placed n s (d :: ds) s' where
  grown := h.grown.trans h'.grown
  postordered := h'.postordered
  row := by
    obtain ⟨m, hd, rfl⟩ := h.row
    exact ⟨_, hd.extends h'.grown, h'.row⟩

theorem Placed.ahead {n : Nat} {ds : List DeclRef} (h : Same s s₁) (h' : Placed n s₁ ds s') : Placed n s ds s' where
  grown := by rw [← h.arena]; exact h'.grown
  postordered := h'.postordered
  row := by rw [← h.arena]; exact h'.row

theorem Placed.behind {n : Nat} {ds : List DeclRef} (h : Placed n s ds s₁) (h' : Same s₁ s') : Placed n s ds s' where
  grown := by rw [h'.arena]; exact h.grown
  postordered := same_postordered h.postordered h'
  row := by rw [h'.arena]; exact h.row

/-- The step reads a declaration whose local declarations are nested at most `n - 1` levels deep. -/
def ReadsDecl (n : Nat) (p : ParseM DeclRef) : Prop :=
  ∀ (s : Parser) (d : DeclRef) (s' : Parser), s.arena.Postordered → p s = .ok d s' → Placed n s [d] s'

/-! ## Blocks -/

theorem placed_declarationsFrom {n : Nat} {declaration : ParseM DeclRef} (hd : ReadsDecl n declaration) :
    ∀ (j : Nat) {ds : List DeclRef} {s s' : Parser}, s.arena.Postordered →
      declarationsFrom declaration j s = .ok ds s' → Placed n s ds s'
  | 0, ds, s, s', hs, h => by
    obtain ⟨rfl, rfl⟩ := pure_ok h
    exact Placed.of_same hs (Same.refl s)
  | j + 1, ds, s, s', hs, h => by
    obtain ⟨t, s₁, h₁, h⟩ := bind_ok h
    have hs₁ := quiet_atDeclaration _ _ _ h₁
    split at h
    · obtain ⟨d, s₂, h₂, h⟩ := bind_ok h
      obtain ⟨rest, s₃, h₃, h⟩ := bind_ok h
      obtain ⟨rfl, rfl⟩ := pure_ok h
      have hfirst := hd s₁ d s₂ (same_postordered hs hs₁) h₂
      exact Placed.ahead hs₁ (hfirst.cons (placed_declarationsFrom hd j hfirst.postordered h₃))
    · obtain ⟨rfl, rfl⟩ := pure_ok h
      exact Placed.of_same hs hs₁

theorem placed_declarations {n bound : Nat} {declaration : ParseM DeclRef} (hd : ReadsDecl n declaration)
    {ds : List DeclRef} (hs : s.arena.Postordered) (h : declarations bound declaration s = .ok ds s') :
    Placed n s ds s' := by
  obtain ⟨t, s₁, h₁, h⟩ := bind_ok h
  have hs₁ := quiet_atDeclaration _ _ _ h₁
  split at h
  · exact Placed.ahead hs₁ (placed_declarationsFrom hd bound (same_postordered hs hs₁) h)
  · exact absurd h refuse_ne_ok

theorem placed_letBlock {n bound : Nat} {declaration : ParseM DeclRef} (hd : ReadsDecl n declaration)
    {ds : List DeclRef} (hs : s.arena.Postordered) (h : letBlock bound declaration s = .ok ds s') :
    Placed n s ds s' := by
  obtain ⟨t, s₁, h₁, h⟩ := bind_ok h
  have hs₁ := Quiet.peek _ _ _ h₁
  split at h
  · obtain ⟨u, s₂, h₂, h⟩ := bind_ok h
    obtain ⟨ds', s₃, h₃, h⟩ := bind_ok h
    obtain ⟨u', s₄, h₄, h⟩ := bind_ok h
    obtain ⟨rfl, rfl⟩ := pure_ok h
    have hs₂ := hs₁.trans (Quiet.skip _ _ _ h₂)
    have hds := placed_declarations hd (same_postordered hs hs₂) h₃
    exact (Placed.ahead hs₂ hds).behind (Quiet.keyword _ _ _ _ h₄)
  · obtain ⟨rfl, rfl⟩ := pure_ok h
    exact Placed.of_same hs hs₁

/-! ## Functions and classes -/

/-- A whole expression is added. -/
theorem fill_expression {bound : Nat} {e : ExprRef} (hs : s.arena.Postordered)
    (h : expression bound s = .ok e s') :
    s.arena.Extends s'.arena ∧ s'.arena.Postordered ∧ s'.arena.Fill nestingBound s.arena.stop [e] s'.arena.stop :=
  have hb := readsExpr_expression bound s.depth s e s' hs rfl h
  ⟨hb.grown, hb.postordered, hb.fill⟩

/-- Exactly these functions have been added, with all their parts. -/
structure PlacedFunctions (n : Nat) (s : Parser) (fs : List Function) (s' : Parser) : Prop where
  grown : s.arena.Extends s'.arena
  postordered : s'.arena.Postordered
  row : Arena.Row (s'.arena.FunctionAt nestingBound (s'.arena.DeclAt nestingBound n)) s.arena.stop fs s'.arena.stop

theorem placed_function {n bound : Nat} {declaration : ParseM DeclRef} (hd : ReadsDecl n declaration) {f : Function}
    (hs : s.arena.Postordered) (h : function bound declaration s = .ok f s') : PlacedFunctions n s [f] s' := by
  obtain ⟨place, s₁, h₁, h⟩ := bind_ok h
  obtain ⟨u₁, s₂, h₂, h⟩ := bind_ok h
  obtain ⟨⟨name, place'⟩, s₃, h₃, h⟩ := bind_ok h
  obtain ⟨u₂, s₄, h₄, h⟩ := bind_ok h
  obtain ⟨ret, s₅, h₅, h⟩ := bind_ok h
  obtain ⟨u₃, s₆, h₆, h⟩ := bind_ok h
  obtain ⟨params, s₇, h₇, h⟩ := bind_ok h
  obtain ⟨u₄, s₈, h₈, h⟩ := bind_ok h
  obtain ⟨locals, s₉, h₉, h⟩ := bind_ok h
  obtain ⟨body, s₁₀, h₁₀, h⟩ := bind_ok h
  obtain ⟨u₅, s₁₁, h₁₁, h⟩ := bind_ok h
  obtain ⟨rfl, rfl⟩ := pure_ok h
  have hsame : Same s s₈ :=
    ((((((Quiet.location _ _ _ h₁).trans (Quiet.keyword _ _ _ _ h₂)).trans (Quiet.identifier _ _ _ h₃)).trans
      (Quiet.mark _ _ _ _ h₄)).trans (quiet_simpleType _ _ _ h₅)).trans (Quiet.mark _ _ _ _ h₆)).trans
      ((quiet_commaSeparated (quiet_typedName (quiet_anyType _ _)) _ _ _ _ h₇).trans (Quiet.mark _ _ _ _ h₈))
  obtain ⟨-, t, ht, rfl⟩ := nested_ok h₉
  have hpost₈ : s₈.arena.Postordered := same_postordered hs hsame
  have hlocals := placed_letBlock (s := { s₈ with depth := s₈.depth + 1 }) hd hpost₈ ht
  obtain ⟨hgrown, hpost, hfill⟩ := fill_expression (s := { t with depth := t.depth - 1 }) hlocals.postordered h₁₀
  have hend := Quiet.mark _ _ _ _ h₁₁
  have hrow := hlocals.row.imp fun {s t d} _ hd => hd.extends hgrown
  refine ⟨?_, same_postordered hpost hend, ?_⟩
  · rw [← hsame.arena, hend.arena]
    exact hlocals.grown.trans hgrown
  · rw [← hsame.arena, hend.arena]
    exact ⟨_, ⟨_, hrow, hfill⟩, rfl⟩

theorem PlacedFunctions.cons {n : Nat} {f : Function} {fs : List Function} (h : PlacedFunctions n s [f] s₁)
    (h' : PlacedFunctions n s₁ fs s') : PlacedFunctions n s (f :: fs) s' where
  grown := h.grown.trans h'.grown
  postordered := h'.postordered
  row := by
    obtain ⟨m, hf, rfl⟩ := h.row
    exact ⟨_, hf.imp h'.grown fun _ hd => hd.extends h'.grown, h'.row⟩

theorem placed_methods {n : Nat} {function : ParseM Function}
    (hf : ∀ (s : Parser) (f : Function) (s' : Parser), s.arena.Postordered → function s = .ok f s' →
      PlacedFunctions n s [f] s') :
    ∀ (j : Nat) {fs : List Function} {s s' : Parser}, s.arena.Postordered → methods function j s = .ok fs s' →
      PlacedFunctions n s fs s'
  | 0, fs, s, s', hs, h => by
    obtain ⟨rfl, rfl⟩ := pure_ok h
    exact ⟨.refl _, hs, rfl⟩
  | j + 1, fs, s, s', hs, h => by
    obtain ⟨t, s₁, h₁, h⟩ := bind_ok h
    have hs₁ := Quiet.peek _ _ _ h₁
    have hpost := same_postordered hs hs₁
    split at h
    · obtain ⟨f, s₂, h₂, h⟩ := bind_ok h
      obtain ⟨rest, s₃, h₃, h⟩ := bind_ok h
      obtain ⟨rfl, rfl⟩ := pure_ok h
      have hfirst := hf s₁ f s₂ hpost h₂
      have hall := hfirst.cons (placed_methods hf j hfirst.postordered h₃)
      exact ⟨by rw [← hs₁.arena]; exact hall.grown, hall.postordered, by rw [← hs₁.arena]; exact hall.row⟩
    · obtain ⟨rfl, rfl⟩ := pure_ok h
      exact ⟨by rw [hs₁.arena]; exact .refl _, hpost, by rw [hs₁.arena]; rfl⟩

theorem placed_classDecl {n bound : Nat} {declaration : ParseM DeclRef} (hd : ReadsDecl n declaration) {c : Class}
    (hs : s.arena.Postordered) (h : classDecl bound declaration s = .ok c s') :
    PlacedFunctions n s c.methods s' := by
  obtain ⟨place, s₁, h₁, h⟩ := bind_ok h
  obtain ⟨u₁, s₂, h₂, h⟩ := bind_ok h
  obtain ⟨⟨name, place'⟩, s₃, h₃, h⟩ := bind_ok h
  obtain ⟨u₂, s₄, h₄, h⟩ := bind_ok h
  obtain ⟨fields, s₅, h₅, h⟩ := bind_ok h
  obtain ⟨u₃, s₆, h₆, h⟩ := bind_ok h
  obtain ⟨u₄, s₇, h₇, h⟩ := bind_ok h
  obtain ⟨ms, s₈, h₈, h⟩ := bind_ok h
  obtain ⟨u₅, s₉, h₉, h⟩ := bind_ok h
  obtain ⟨rfl, rfl⟩ := pure_ok h
  have hsame : Same s s₇ :=
    (((((Quiet.location _ _ _ h₁).trans (Quiet.keyword _ _ _ _ h₂)).trans (Quiet.identifier _ _ _ h₃)).trans
      (Quiet.mark _ _ _ _ h₄)).trans (quiet_commaSeparated (quiet_typedName quiet_simpleType) _ _ _ _ h₅)).trans
      ((Quiet.mark _ _ _ _ h₆).trans (Quiet.mark _ _ _ _ h₇))
  have hms := placed_methods (fun s f s' hs h => placed_function hd hs h) bound (same_postordered hs hsame) h₈
  have hend := Quiet.mark _ _ _ _ h₉
  refine ⟨?_, same_postordered hms.postordered hend, ?_⟩
  · rw [← hsame.arena, hend.arena]
    exact hms.grown
  · rw [← hsame.arena, hend.arena]
    exact hms.row

/-! ## Declarations -/

/-- A declaration is added behind its parts. -/
theorem placed_addDecl {n : Nat} {x : Decl} {d : DeclRef} (hgrown : s.arena.Extends s₁.arena)
    (hpost : s₁.arena.Postordered) (hadd : addDecl x s₁ = .ok d s')
    (hx : match x with
      | .varDecl v => s'.arena.Fill nestingBound s.arena.stop [v.init] s₁.arena.stop
      | .funDecl f => s'.arena.FunctionAt nestingBound (s'.arena.DeclAt nestingBound n) s.arena.stop f s₁.arena.stop
      | .classDecl c =>
        Arena.Row (s'.arena.FunctionAt nestingBound (s'.arena.DeclAt nestingBound n)) s.arena.stop c.methods
          s₁.arena.stop) :
    Placed (n + 1) s [d] s' := by
  cases hadd
  refine ⟨hgrown.trans (s₁.arena.extends_addDecl x), hpost.addDecl x, ?_⟩
  have hget : (s₁.arena.addDecl x).2.decl? ⟨s₁.arena.decls.size⟩ = some x := by
    simp [Arena.addDecl, Arena.decl?]
  refine ⟨_, ⟨?_, ?_⟩, rfl⟩
  · simp [Arena.stop]
  · dsimp only [Arena.addDecl] at hx hget ⊢
    rw [hget]
    cases x <;> exact hx

theorem readsDecl_declaration (bound : Nat) : ∀ n : Nat, ReadsDecl n (declaration bound n)
  | 0 => fun _ _ _ _ h => absurd h tooDeep_ne_ok
  | n + 1 => by
    intro s d s' hs h
    obtain ⟨t, s₁, h₁, h⟩ := bind_ok h
    have hs₁ := Quiet.peek _ _ _ h₁
    have hpost := same_postordered hs hs₁
    refine Placed.ahead hs₁ ?_
    split at h
    · obtain ⟨v, s₂, h₂, h⟩ := bind_ok h
      obtain ⟨place, t₁, g₁, h₂⟩ := bind_ok h₂
      obtain ⟨u₁, t₂, g₂, h₂⟩ := bind_ok h₂
      obtain ⟨⟨name, place'⟩, t₃, g₃, h₂⟩ := bind_ok h₂
      obtain ⟨u₂, t₄, g₄, h₂⟩ := bind_ok h₂
      obtain ⟨ty, t₅, g₅, h₂⟩ := bind_ok h₂
      obtain ⟨u₃, t₆, g₆, h₂⟩ := bind_ok h₂
      obtain ⟨init, t₇, g₇, h₂⟩ := bind_ok h₂
      obtain ⟨u₄, t₈, g₈, h₂⟩ := bind_ok h₂
      obtain ⟨rfl, rfl⟩ := pure_ok h₂
      have hsame : Same s₁ t₆ :=
        ((((Quiet.location _ _ _ g₁).trans (Quiet.keyword _ _ _ _ g₂)).trans (Quiet.identifier _ _ _ g₃)).trans
          (Quiet.mark _ _ _ _ g₄)).trans ((quiet_anyType _ _ _ _ _ g₅).trans (Quiet.mark _ _ _ _ g₆))
      obtain ⟨hgrown, hpost', hfill⟩ := fill_expression (same_postordered hpost hsame) g₇
      have hend := Quiet.mark _ _ _ _ g₈
      rw [hsame.arena] at hgrown hfill
      refine placed_addDecl ?_ (same_postordered hpost' hend) h ?_
      · rw [hend.arena]; exact hgrown
      · cases h
        dsimp only
        rw [hend.arena]
        exact hfill.extends (Arena.extends_addDecl _ _)
    · obtain ⟨f, s₂, h₂, h⟩ := bind_ok h
      have hf := placed_function (readsDecl_declaration bound n) hpost h₂
      refine placed_addDecl hf.grown hf.postordered h ?_
      obtain ⟨m, hat, rfl⟩ := hf.row
      cases h
      exact hat.imp (Arena.extends_addDecl _ _) fun _ hd => hd.extends (Arena.extends_addDecl _ _)
    · obtain ⟨c, s₂, h₂, h⟩ := bind_ok h
      have hc := placed_classDecl (readsDecl_declaration bound n) hpost h₂
      refine placed_addDecl hc.grown hc.postordered h ?_
      cases h
      exact hc.row.imp fun _ hat => hat.imp (Arena.extends_addDecl _ _) fun _ hd =>
        hd.extends (Arena.extends_addDecl _ _)
    · exact absurd h refuse_ne_ok

end Grammar

/-! ## Programs -/

open Fool.Parser Fool.Grammar

/-- Everything in the arena belongs to the program, and each part to one place. -/
structure Program.Placed (p : Program) : Prop where
  postordered : p.arena.Postordered
  row : ∃ m, Arena.Row (p.arena.DeclAt nestingBound (p.arena.decls.size + 1)) ⟨0, 0⟩ p.declarations m ∧
    p.arena.Fill nestingBound m [p.body] p.arena.stop

/-- What the parser reads is a tree: every part of the program stands in one place, and nothing else was added. -/
theorem placed_of_parse {text : String} {names names' : Names} {p : Program}
    (h : Program.parse text names = (.ok p, names')) : p.Placed := by
  unfold Program.parse at h
  split at h
  · rename_i q s hq
    cases h
    obtain ⟨n, s₁, h₁, hq⟩ := bind_ok hq
    obtain ⟨ds, s₂, h₂, hq⟩ := bind_ok hq
    obtain ⟨body, s₃, h₃, hq⟩ := bind_ok hq
    obtain ⟨u, s₄, h₄, hq⟩ := bind_ok hq
    obtain ⟨t, s₅, h₅, hq⟩ := bind_ok hq
    obtain ⟨s', s₆, h₆, hq⟩ := bind_ok hq
    obtain ⟨rfl, rfl⟩ := pure_ok hq
    cases h₆
    have hs₁ := Quiet.bound _ _ _ h₁
    have hds := placed_letBlock (readsDecl_declaration n _) (same_postordered Arena.postordered_empty hs₁) h₂
    obtain ⟨hgrown, hpost, hfill⟩ := fill_expression hds.postordered h₃
    have hend := (Quiet.mark _ _ _ _ h₄).trans (Quiet.expect _ _ _ _ h₅)
    refine ⟨same_postordered hpost hend, s₂.arena.stop, ?_, ?_⟩
    · have hrow := hds.row.imp fun {s t d} _ hd => hd.extends hgrown
      rw [hs₁.arena] at hrow
      dsimp only
      rw [hend.arena]
      refine Arena.Row.imp_of_le Pos.decls Arena.DeclAt.decls_le (fun hle hd => hd.of_lt ?_) hrow
      have h1 := hd.le
      have h2 : s₂.arena.decls.size = s₃.arena.decls.size := hfill.2.1.symm
      simp only [Arena.stop] at hle
      omega
    · dsimp only
      rw [hend.arena]
      exact hfill
  · cases h

end Fool
