import Fool.Proofs.Parse.Grammar
import Fool.Proofs.Parse.Stream

/-!
# Trees while they are read

What stands for a tree still does when the tree and the names of the parser grow (`Parser.Grows`), and the first token
of a list says which nonterminals it may belong to (`Heads`).
-/

namespace Fool

/-! ## Trees stay -/

namespace Syntax

variable {a : Arena} {names names' : Names} {s s' : Parser}

theorem Form.Fits.grows (h : Parser.Grows s s') {form : Form} {x : Expr} (hx : form.Fits s.names x) :
    form.Fits s'.names x := by
  unfold Form.Fits at hx ⊢
  split at hx <;> first | exact hx | exact h.names hx | exact ⟨h.names hx.1, h.names hx.2⟩

mutual

theorem Tree.Stands.grows (h : Parser.Grows s s') : ∀ {t : Tree} {e : ExprRef}, t.Stands s.arena s.names e →
    t.Stands s'.arena s'.names e
  | .node .., _, ⟨x, hx, hf, hp⟩ => ⟨x, h.arena.nodes hx, hf.grows h, Tree.StandAll.grows h hp⟩

theorem Tree.StandAll.grows (h : Parser.Grows s s') : ∀ {ts : List Tree} {es : List ExprRef},
    Tree.StandAll s.arena s.names ts es → Tree.StandAll s'.arena s'.names ts es
  | [], [], _ => trivial
  | _ :: _, _ :: _, ⟨ht, hts⟩ => ⟨ht.grows h, Tree.StandAll.grows h hts⟩

end

mutual

theorem TypeTree.Is.grows (h : Parser.Grows s s') : ∀ {t : TypeTree} {ty : Ty}, t.Is s.names ty → t.Is s'.names ty
  | .int, .int, _ => trivial
  | .bool, .bool, _ => trivial
  | .object _, .object _, hs => h.names hs
  | .arrow .., .arrow .., ⟨hp, hr⟩ => ⟨TypeTree.AreAll.grows h hp, hr.grows h⟩

theorem TypeTree.AreAll.grows (h : Parser.Grows s s') : ∀ {ts : List TypeTree} {tys : List Ty},
    TypeTree.AreAll s.names ts tys → TypeTree.AreAll s'.names ts tys
  | [], [], _ => trivial
  | _ :: _, _ :: _, ⟨ht, hts⟩ => ⟨ht.grows h, TypeTree.AreAll.grows h hts⟩

end

theorem Member.Is.grows (h : Parser.Grows s s') {m : Member} {x : TypedName} (hm : m.Is s.names x) :
    m.Is s'.names x :=
  ⟨h.names hm.1, hm.2.1.grows h, hm.2.2⟩

mutual

theorem FunctionTree.Is.grows (h : Parser.Grows s s') : ∀ {t : FunctionTree} {f : Function},
    t.Is s.arena s.names f → t.Is s'.arena s'.names f
  | .mk .., _, ⟨hname, hret, hparams, hlocals, hbody, hplace⟩ => ⟨h.names hname, hret.grows h,
      hparams.imp fun _ _ hm => hm.grows h, DeclTree.StandAll.grows h hlocals, hbody.grows h, hplace⟩

theorem FunctionTree.AreAll.grows (h : Parser.Grows s s') : ∀ {ts : List FunctionTree} {fs : List Function},
    FunctionTree.AreAll s.arena s.names ts fs → FunctionTree.AreAll s'.arena s'.names ts fs
  | [], [], _ => trivial
  | _ :: _, _ :: _, ⟨ht, hts⟩ => ⟨ht.grows h, FunctionTree.AreAll.grows h hts⟩

theorem DeclTree.Stands.grows (h : Parser.Grows s s') : ∀ {t : DeclTree} {d : DeclRef},
    t.Stands s.arena s.names d → t.Stands s'.arena s'.names d
  | .var .., _, ⟨v, hv, hname, htype, hinit, hplace⟩ =>
    ⟨v, h.arena.decls hv, h.names hname, htype.grows h, hinit.grows h, hplace⟩
  | .function _, _, ⟨f, hf, hi⟩ => ⟨f, h.arena.decls hf, hi.grows h⟩
  | .cls .., _, ⟨c, hc, hname, hfields, hmethods, hplace⟩ => ⟨c, h.arena.decls hc, h.names hname,
      hfields.imp fun _ _ hm => hm.grows h, FunctionTree.AreAll.grows h hmethods, hplace⟩

theorem DeclTree.StandAll.grows (h : Parser.Grows s s') : ∀ {ts : List DeclTree} {ds : List DeclRef},
    DeclTree.StandAll s.arena s.names ts ds → DeclTree.StandAll s'.arena s'.names ts ds
  | [], [], _ => trivial
  | _ :: _, _ :: _, ⟨ht, hts⟩ => ⟨ht.grows h, DeclTree.StandAll.grows h hts⟩

end

theorem Tree.standAll_iff {ts : List Tree} {es : List ExprRef} :
    Tree.StandAll a names ts es ↔ List.Forall₂ (Tree.Stands a names) ts es := by
  induction ts generalizing es with
  | nil => cases es <;> simp [Tree.StandAll]
  | cons t ts ih => cases es <;> simp [Tree.StandAll, ih]

theorem TypeTree.areAll_iff {ts : List TypeTree} {tys : List Ty} :
    TypeTree.AreAll names ts tys ↔ List.Forall₂ (TypeTree.Is names) ts tys := by
  induction ts generalizing tys with
  | nil => cases tys <;> simp [TypeTree.AreAll]
  | cons t ts ih => cases tys <;> simp [TypeTree.AreAll, ih]

theorem FunctionTree.areAll_iff {ts : List FunctionTree} {fs : List Function} :
    FunctionTree.AreAll a names ts fs ↔ List.Forall₂ (FunctionTree.Is a names) ts fs := by
  induction ts generalizing fs with
  | nil => cases fs <;> simp [FunctionTree.AreAll]
  | cons t ts ih => cases fs <;> simp [FunctionTree.AreAll, ih]

theorem DeclTree.standAll_iff {ts : List DeclTree} {ds : List DeclRef} :
    DeclTree.StandAll a names ts ds ↔ List.Forall₂ (DeclTree.Stands a names) ts ds := by
  induction ts generalizing ds with
  | nil => cases ds <;> simp [DeclTree.StandAll]
  | cons t ts ih => cases ds <;> simp [DeclTree.StandAll, ih]

/-! ## First tokens -/

/-- The list begins with such a token. -/
def Heads (P : TokenKind → Prop) (ts : List Token) : Prop := ∃ t us, ts = t :: us ∧ P t.kind

theorem Heads.append {P : TokenKind → Prop} {ts : List Token} (h : Heads P ts) (us : List Token) :
    Heads P (ts ++ us) := by
  obtain ⟨t, vs, rfl, ht⟩ := h
  exact ⟨t, vs ++ us, rfl, ht⟩

theorem Heads.mono {P P' : TokenKind → Prop} {ts : List Token} (h : Heads P ts) (hP : ∀ k, P k → P' k) :
    Heads P' ts := by
  obtain ⟨t, vs, hts, ht⟩ := h
  exact ⟨t, vs, hts, hP _ ht⟩

theorem Items.heads {α : Type} {item : Lang α} {P : TokenKind → Prop} (hi : ∀ {ts : List Token} {x : α},
    item ts x → Heads P ts) {ts : List Token} {xs : List α} (h : Items item ts xs) : Heads P ts := by
  cases h with
  | one hx => exact hi hx
  | cons hx _ _ => exact (hi hx).append _

/-- With such a token an expression may begin; `let` is none and a closing parenthesis neither. -/
def Opens (k : TokenKind) : Prop := k ≠ .mark .parenClose ∧ k ≠ .keyword .letKw

theorem Arguments.heads {expr : Lang Tree} {ts : List Token} {es : List Tree} (h : Arguments expr ts es) :
    Heads (fun k => k = .mark .parenOpen) ts := by
  cases h with
  | mk hleft _ _ => exact ⟨_, _, rfl, hleft⟩

theorem Primary.heads {expr : Lang Tree} {ts : List Token} {e : Tree} (h : Primary expr ts e) :
    Heads (fun k => Opens k ∧ k ≠ .mark .not) ts := by
  unfold Opens
  cases h <;> exact ⟨_, _, rfl, by simp [*]⟩

theorem UnaryOver.heads {expr operand : Lang Tree} {ts : List Token} {e : Tree} (h : UnaryOver expr operand ts e) :
    Heads Opens ts := by
  cases h with
  | primary h => exact h.heads.mono fun _ hk => hk.1
  | not hk _ => exact ⟨_, _, rfl, by simp [Opens, hk]⟩

theorem Chain.heads {l : Level} {operand : Lang Tree} {P : TokenKind → Prop} (ho : ∀ {ts : List Token} {e : Tree},
    operand ts e → Heads P ts) {ts : List Token} {e : Tree} (h : Chain l operand ts e) : Heads P ts := by
  induction h with
  | operand h => exact ho h
  | binary _ _ _ _ ih => exact ih.append _

theorem Expression.heads {n : Nat} {ts : List Token} {e : Tree} (h : Expression n ts e) : Heads Opens ts := by
  obtain _ | n := n
  · exact h.elim
  · refine Chain.heads (Chain.heads (Chain.heads (Chain.heads fun hu => ?_))) h
    rw [unary_eq] at hu
    exact hu.heads

theorem SimpleType.heads {ts : List Token} {ty : TypeTree} (h : SimpleType ts ty) :
    Heads (fun k => k ≠ .mark .parenOpen ∧ k ≠ .mark .parenClose) ts := by
  cases h <;> exact ⟨_, _, rfl, by simp [*]⟩

theorem AnyType.heads {n : Nat} {ts : List Token} {ty : TypeTree} (h : AnyType n ts ty) :
    Heads (fun k => k ≠ .mark .parenClose) ts := by
  rw [anyType_eq] at h
  cases h with
  | simple h => exact h.heads.mono fun _ hk => hk.2
  | arrow hleft _ _ _ _ => exact ⟨_, _, rfl, by simp [hleft]⟩

theorem MemberOf.heads {type : Lang TypeTree} {ts : List Token} {m : Member} (h : MemberOf type ts m) :
    Heads (fun k => k ≠ .mark .parenClose) ts := by
  cases h with
  | mk hid _ _ => exact ⟨_, _, rfl, by simp [hid]⟩

theorem FunctionDecl.heads {n : Nat} {locals : Lang (List DeclTree)} {ts : List Token} {f : FunctionTree}
    (h : FunctionDecl n locals ts f) : Heads (fun k => k = .keyword .funKw) ts := by
  cases h with
  | mk hfun => exact ⟨_, _, rfl, hfun⟩

theorem DeclOver.heads {n : Nat} {locals : Lang (List DeclTree)} {ts : List Token} {d : DeclTree}
    (h : DeclOver n locals ts d) : Heads BeginsDecl ts := by
  cases h with
  | var hvar => exact ⟨_, _, rfl, .inl hvar⟩
  | function h => exact h.heads.mono fun _ hk => .inr (.inl hk)
  | cls hclass => exact ⟨_, _, rfl, .inr (.inr hclass)⟩

end Syntax

end Fool
