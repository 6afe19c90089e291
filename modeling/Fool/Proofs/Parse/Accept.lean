import Fool.Proofs.Parse.Sound
import Fool.Proofs.Parse.Trees

/-!
# What is in the grammar is read

Before a list of tokens of a nonterminal, with a token behind it that cannot continue it, a step of reading takes just
that list and gives what its tree is (`Finds`), unless constructs are nested too deep. The operators of looser levels
may stand behind an operand, those of its own level and the tighter ones continue it (`Stops`).
-/

namespace Fool

namespace Grammar

open Fool.Parser Fool.Syntax

variable {α τ : Type} {bound d n : Nat} {s s' : Parser} {rs rs' : List (Except ParseError Token)} {t : Token}
  {ts : List Token}

/-! ## Steps of reading -/

/-- The answers begin with such a token. -/
def Next (P : TokenKind → Prop) (rs : List (Except ParseError Token)) : Prop := ∃ t rs', rs = .ok t :: rs' ∧ P t.kind

theorem Next.of_heads {P : TokenKind → Prop} (h : Heads P ts) (rs : List (Except ParseError Token)) :
    Next P (ts.map .ok ++ rs) := by
  obtain ⟨t, us, rfl, ht⟩ := h
  exact ⟨t, us.map .ok ++ rs, rfl, ht⟩

theorem Next.any {P : TokenKind → Prop} (h : Next P rs) : Next (fun _ => True) rs := by
  obtain ⟨t, rs', hrs, -⟩ := h
  exact ⟨t, rs', hrs, trivial⟩

theorem Before.stay (hb : Before bound d s rs) (h : Leaves s rs s') : Before bound d s' rs :=
  ⟨h.ahead, hb.length_le, h.depth.trans hb.depth⟩

theorem Before.past (hb : Before bound d s (.ok t :: rs)) (h : Leaves s rs s') : Before bound d s' rs :=
  ⟨h.ahead, Nat.le_of_succ_le hb.length_le, h.depth.trans hb.depth⟩

theorem Before.behind (hb : Before bound d s (ts.map .ok ++ rs)) (h : Leaves s rs s') : Before bound d s' rs := by
  refine ⟨h.ahead, Nat.le_trans ?_ hb.length_le, h.depth.trans hb.depth⟩
  rw [List.length_append]
  exact Nat.le_add_left _ _

/-- What is related stays so when the tree and the names grow. -/
def Keeps (R : Parser → τ → α → Prop) : Prop := ∀ ⦃s s' x a⦄, Grows s s' → R s x a → R s' x a

/-- Before a list of tokens of the language, behind which such a token stands, the step takes the list and gives what
is related to its tree; or it finds more than `d + n` levels. -/
def Finds (bound d n : Nat) (lang : Lang τ) (follow : TokenKind → Prop) (R : Parser → τ → α → Prop)
    (p : ParseM α) : Prop :=
  ∀ ⦃s : Parser⦄ ⦃ts : List Token⦄ ⦃x : τ⦄ ⦃rs : List (Except ParseError Token)⦄,
    Before bound d s (ts.map .ok ++ rs) → lang ts x → Next follow rs →
    Ends s rs (d + n) (fun s' a => R s' x a) (p s)

theorem Finds.nested {lang : Nat → Lang τ} {follow : TokenKind → Prop} {R : Parser → τ → α → Prop} {p : ParseM α}
    (hkeep : Keeps R)
    (h : ∀ m, n = m + 1 → d < maxDepth → Finds bound (d + 1) m (lang m) follow R p) :
    Finds bound d n (Below lang n) follow R (nested p) := by
  intro s ts x rs hb hx hnext
  obtain _ | m := n
  · exact hx.elim
  · obtain ⟨t, rs', hfirst⟩ : ∃ t rs', ts.map .ok ++ rs = .ok t :: rs' := by
      obtain ⟨k, rs', rfl, -⟩ := hnext
      cases ts <;> exact ⟨_, _, rfl⟩
    refine Ends.nested (by rw [hb.depth]; omega) (hfirst ▸ hb.ahead) (fun s₁ a ha => ?_) ?_
    · exact hkeep (show Grows s₁ { s₁ with depth := s₁.depth - 1 } from ⟨.refl _, id⟩) ha
    intro hlt
    rw [hb.depth] at hlt
    have hdeeper : Before bound (d + 1) { s with depth := s.depth + 1 } (ts.map .ok ++ rs) :=
      ⟨hb.ahead.congr rfl, hb.length_le, congrArg (· + 1) hb.depth⟩
    have hend := h m rfl hlt hdeeper hx hnext
    rwa [show d + 1 + m = d + (m + 1) by omega] at hend

/-! ## Lists -/

section Lists

variable {item : Lang τ} {follow : TokenKind → Prop} {R : Parser → τ → α → Prop} {p : ParseM α}

theorem ends_items (hi : Finds bound d n item follow R p) (hkeep : Keeps R) (hcomma : follow (.mark .comma))
    (hclose : follow (.mark .parenClose)) {xs : List τ} (h : Items item ts xs) :
    ∀ {k : Nat} {s : Parser} {rs : List (Except ParseError Token)}, Before bound d s (ts.map .ok ++ rs) →
      (ts.map .ok ++ rs : List (Except ParseError Token)).length ≤ k → Next (· = .mark .parenClose) rs →
      Ends s rs (d + n) (fun s' as => List.Forall₂ (R s') xs as) (items p k s) := by
  induction h with
  | one hx =>
    intro k s rs hb hk hnext
    obtain ⟨t, rs', rfl, ht⟩ := hnext
    obtain _ | k := k
    · simp at hk
    · refine (hi hb hx ⟨t, rs', rfl, ht ▸ hclose⟩).bind fun a s₁ h₁ ha => ?_
      refine (ends_peek h₁.ahead).bind fun kind s₂ h₂ hkind => ?_
      rw [if_neg (by simp [hkind, ht])]
      exact .pure h₂.ahead (.cons (hkeep h₂.grows ha) .nil)
  | @cons ts us x xs comma hx hc _ ih =>
    intro k s rs hb hk hnext
    simp only [List.map_append, List.map_cons, List.append_assoc, List.cons_append] at hb hk
    obtain _ | k := k
    · simp at hk
    · refine (hi hb hx ⟨comma, _, rfl, hc ▸ hcomma⟩).bind fun a s₁ h₁ ha => ?_
      refine (ends_peek h₁.ahead).bind fun kind s₂ h₂ hkind => ?_
      rw [if_pos (hkind.trans hc)]
      refine (ends_skip h₂.ahead (by simp [hc])).bind fun _ s₃ h₃ _ => ?_
      have hb₃ := ((hb.behind h₁).stay h₂).past h₃
      have hlen : (us.map .ok ++ rs : List (Except ParseError Token)).length ≤ k := by
        simp only [List.length_append, List.length_cons, List.length_map] at hk ⊢
        omega
      refine (ih hb₃ hlen hnext).bind fun as s₄ h₄ has => ?_
      exact .pure h₄.ahead (.cons (hkeep (h₂.trans (h₃.trans h₄)).grows ha) has)

theorem Finds.commaSeparated (hi : Finds bound d n item follow R p) (hkeep : Keeps R) (hcomma : follow (.mark .comma))
    (hclose : follow (.mark .parenClose))
    (hhead : ∀ {ts : List Token} {x : τ}, item ts x → Heads (fun k => k ≠ .mark .parenClose) ts) :
    Finds bound d n (Listed item) (· = .mark .parenClose) (fun s xs as => List.Forall₂ (R s) xs as)
      (commaSeparated bound p) := by
  intro s ts xs rs hb hx hnext
  cases hx with
  | none =>
    obtain ⟨t, rs', rfl, ht⟩ := hnext
    refine (ends_peek hb.ahead).bind fun kind s₁ h₁ hkind => ?_
    rw [if_pos (hkind.trans ht)]
    exact .pure h₁.ahead .nil
  | some hxs =>
    obtain ⟨t, us, rfl, ht⟩ := hxs.heads hhead
    refine (ends_peek hb.ahead).bind fun kind s₁ h₁ hkind => ?_
    rw [if_neg (by rw [hkind]; exact ht)]
    have hb₁ := hb.stay h₁
    exact ends_items hi hkeep hcomma hclose hxs hb₁ hb₁.length_le hnext

end Lists

/-! ## Types -/

theorem finds_simpleType : Finds bound d n SimpleType (fun _ => True) (fun s t ty => t.Is s.names ty) simpleType := by
  intro s ts x rs hb hx hnext
  cases hx with
  | int hk =>
    refine (ends_peek hb.ahead).bind fun kind s₁ h₁ hkind => ?_
    rw [hkind, hk]
    exact (ends_skip h₁.ahead (by simp [hk])).bind fun _ s₂ h₂ _ => .pure h₂.ahead trivial
  | bool hk =>
    refine (ends_peek hb.ahead).bind fun kind s₁ h₁ hkind => ?_
    rw [hkind, hk]
    exact (ends_skip h₁.ahead (by simp [hk])).bind fun _ s₂ h₂ _ => .pure h₂.ahead trivial
  | object hk =>
    refine (ends_peek hb.ahead).bind fun kind s₁ h₁ hkind => ?_
    rw [hkind, hk]
    exact (ends_identifier h₁.ahead hk).bind fun x s₂ h₂ hx => .pure h₂.ahead hx.1

theorem below_anyType_heads {ty : TypeTree} (h : Below AnyType n ts ty) :
    Heads (fun k => k ≠ .mark .parenClose) ts := by
  obtain _ | m := n
  · exact h.elim
  · exact AnyType.heads h

theorem finds_anyType : ∀ (k : Nat) {d n : Nat}, d ≤ maxDepth → maxDepth < d + k →
    Finds bound d n (AnyType n) (fun _ => True) (fun s t ty => t.Is s.names ty) (anyType bound k)
  | 0, _, _, hd, hk => by omega
  | k + 1, d, n, hd, hk => by
    intro s ts x rs hb hx hnext
    rw [anyType_eq] at hx
    cases hx with
    | simple hx =>
      obtain ⟨t, us, rfl, ht⟩ := hx.heads
      refine (ends_peek hb.ahead).bind fun kind s₁ h₁ hkind => ?_
      rw [if_neg (by rw [hkind]; exact ht.1)]
      exact finds_simpleType (hb.stay h₁) hx hnext
    | @arrow ps us params ret left right arrow hleft hparams hright harrow hret =>
      simp only [List.map_append, List.map_cons, List.append_assoc, List.cons_append] at hb
      refine (ends_peek hb.ahead).bind fun kind s₁ h₁ hkind => ?_
      rw [if_pos (hkind.trans hleft)]
      refine (ends_skip h₁.ahead (by simp [hleft])).bind fun _ s₂ h₂ _ => ?_
      have hin : Finds bound d n (Below AnyType n) (fun _ => True) (fun s t ty => t.Is s.names ty)
          (Parser.nested (anyType bound k)) :=
        .nested (fun _ _ _ _ hg h => h.grows hg) fun m _ hlt => finds_anyType k hlt (by omega)
      have hlist := hin.commaSeparated (fun _ _ _ _ hg h => h.grows hg) trivial trivial (below_anyType_heads ·)
      refine (hlist ((hb.stay h₁).past h₂) hparams ⟨right, _, rfl, hright⟩).bind fun tys s₃ h₃ htys => ?_
      refine (ends_mark h₃.ahead hright).bind fun _ s₄ h₄ _ => ?_
      refine (ends_mark h₄.ahead harrow).bind fun _ s₅ h₅ _ => ?_
      have hb₅ := ((((hb.stay h₁).past h₂).behind h₃).past h₄).past h₅
      refine (finds_simpleType hb₅ hret hnext).bind fun ty s₆ h₆ hty => ?_
      refine .pure h₆.ahead ⟨TypeTree.areAll_iff.2 (htys.imp fun _ _ h => ?_), hty⟩
      exact h.grows (h₄.trans (h₅.trans h₆)).grows

theorem Finds.typedName {type : Lang TypeTree} {p : ParseM Ty}
    (ht : Finds bound d n type (fun _ => True) (fun s t ty => t.Is s.names ty) p) :
    Finds bound d n (MemberOf type) (fun _ => True) (fun s m x => m.Is s.names x) (typedName p) := by
  intro s ts m rs hb hm hnext
  cases hm with
  | mk hid hcolon hty =>
    refine (ends_identifier hb.ahead hid).bind fun x s₁ h₁ hx => ?_
    refine (ends_mark h₁.ahead hcolon).bind fun _ s₂ h₂ _ => ?_
    refine (ht ((hb.past h₁).past h₂) hty hnext).bind fun ty s₃ h₃ hty => ?_
    exact .pure h₃.ahead ⟨(h₂.trans h₃).grows.names hx.1, hty, congrArg some hx.2⟩

/-! ## Operators -/

/-- With such a token an expression ends. -/
def Closes (k : TokenKind) : Prop :=
  k = .mark .parenClose ∨ k = .mark .comma ∨ k = .mark .braceClose ∨ k = .mark .semicolon ∨ k = .keyword .thenKw

/-- With such a token ends what the operators of the levels may join. -/
def Stops (ls : List Level) (k : TokenKind) : Prop := Closes k ∨ ∃ op, level op ∈ ls ∧ k = .mark (sign op)

theorem Stops.mono {l : Level} {ls : List Level} {k : TokenKind} (h : Stops ls k) : Stops (l :: ls) k := by
  obtain h | ⟨op, hop, hk⟩ := h
  · exact .inl h
  · exact .inr ⟨op, List.mem_cons_of_mem l hop, hk⟩

/-- Behind an operand stands no operator of a level that is not left. -/
theorem levelOp?_of_stops {l : Level} {ls : List Level} {k : TokenKind} (h : Stops ls k) (hl : l ∉ ls) :
    levelOp? l k = none := by
  cases hop : levelOp? l k with
  | none => rfl
  | some op =>
    obtain ⟨rfl, rfl⟩ := levelOp?_eq_some.1 hop
    obtain h | ⟨op', hop', hsign⟩ := h
    · cases op <;> simp [Closes, sign] at h
    · cases op <;> cases op' <;> first | exact absurd hop' hl | cases hsign

/-- Behind a name of its own stands neither arguments nor a dot. -/
theorem Stops.plain {ls : List Level} {k : TokenKind} (h : Stops ls k) : k ≠ .mark .parenOpen ∧ k ≠ .mark .dot := by
  obtain h | ⟨op, -, rfl⟩ := h
  · obtain rfl | rfl | rfl | rfl | rfl := h <;> exact ⟨nofun, nofun⟩
  · cases op <;> exact ⟨nofun, nofun⟩

/-- The expression is this tree. -/
def Stand (s : Parser) (t : Tree) (e : ExprRef) : Prop := t.Stands s.arena s.names e

theorem keeps_stand : Keeps Stand := fun _ _ _ _ hg h => h.grows hg

/-- An expression is added when its parts stand. -/
theorem ends_node {limit : Nat} {form : Form} {x : Expr} {place : Location} {parts : List Tree} (h : Ahead s rs)
    (hform : form.Fits s.names x) (hparts : List.Forall₂ (Stand s) parts x.parts) :
    Ends s rs limit (fun s' e => Stand s' (.node form place parts) e) (addExpr x place s) :=
  (ends_addExpr h).mono fun _ _ h₁ hx =>
    ⟨x, hx, hform.grows h₁.grows, Tree.StandAll.grows h₁.grows (Tree.standAll_iff.2 hparts)⟩

section Chain

variable {l : Level} {ls : List Level} {operand : Lang Tree} {p : ParseM ExprRef}

/-- The induction is on the operators from the last to the first: what is left to read when an operand has been read,
`hthen`, grows by an operator and an operand in front. -/
theorem ends_chain (ho : Finds bound d n operand (Stops (l :: ls)) Stand p) {x : Tree}
    (hx : Chain l operand ts x) : ∀ {k : Nat} {s : Parser} {rs rs' : List (Except ParseError Token)}
      {Q : Parser → ExprRef → Prop}, Before bound d s (ts.map .ok ++ rs) →
      (ts.map .ok ++ rs : List (Except ParseError Token)).length ≤ k → Next (Stops (l :: ls)) rs →
      (∀ {k : Nat} {s' : Parser} {e : ExprRef}, Leaves s rs s' → rs.length ≤ k → Stand s' x e →
        Ends s' rs' (d + n) Q (chainFrom (levelOp? l) p k e s')) →
      Ends s rs' (d + n) Q ((p >>= chainFrom (levelOp? l) p k) s) := by
  induction hx with
  | operand hx =>
    intro k s rs rs' Q hb hk hnext hthen
    refine (ho hb hx hnext).bind fun e s₁ h₁ he => ?_
    refine hthen h₁ (Nat.le_trans ?_ hk) he
    rw [List.length_append]
    exact Nat.le_add_left _ _
  | @binary ts us left right op t _ hl ht hright ih =>
    intro k s rs rs' Q hb hk hnext hthen
    simp only [List.map_append, List.map_cons, List.append_assoc, List.cons_append] at hb hk
    have hop : Stops (l :: ls) t.kind := .inr ⟨op, hl ▸ List.mem_cons_self, ht⟩
    refine ih hb hk ⟨t, _, rfl, hop⟩ fun {k s₁ e} h₁ hk₁ he => ?_
    obtain _ | k := k
    · simp at hk₁
    · refine (ends_peekToken h₁.ahead).bind fun t' s₂ h₂ ht' => ?_
      subst ht'
      rw [levelOp?_eq_some.2 ⟨ht, hl⟩]
      refine (ends_skip h₂.ahead (by simp [ht])).bind fun _ s₃ h₃ _ => ?_
      have hb₃ := ((hb.behind h₁).stay h₂).past h₃
      refine (ho hb₃ hright hnext).bind fun e' s₄ h₄ he' => ?_
      have hkept := (h₂.trans (h₃.trans h₄)).grows
      refine Ends.bind (Q := fun s' e => Stand s' (.node (.binary op) t'.location [left, right]) e)
        (ends_node h₄.ahead rfl (.cons (keeps_stand hkept he) (.cons he' .nil))) fun whole s₅ h₅ hwhole => ?_
      refine hthen (h₁.trans (h₂.trans (h₃.trans (h₄.trans h₅)))) ?_ hwhole
      simp only [List.length_append, List.length_cons, List.length_map] at hk₁
      omega

theorem Finds.chain (l : Level) (hl : l ∉ ls) (ho : Finds bound d n operand (Stops (l :: ls)) Stand p) :
    Finds bound d n (Chain l operand) (Stops ls) Stand (chain bound (levelOp? l) p) := by
  intro s ts x rs hb hx hnext
  obtain ⟨t, rs', rfl, ht⟩ := hnext
  refine ends_chain ho hx hb hb.length_le ⟨t, rs', rfl, ht.mono⟩ fun {k s₁ e} h₁ hk he => ?_
  obtain _ | k := k
  · simp at hk
  · refine (ends_peekToken h₁.ahead).bind fun t' s₂ h₂ ht' => ?_
    subst ht'
    rw [levelOp?_of_stops ht hl]
    exact .pure h₂.ahead (keeps_stand h₂.grows he)

theorem Finds.logical (ho : Finds bound d n operand (Stops [.product, .sum, .relation, .logical]) Stand p) :
    Finds bound d n (Operators operand) (Stops []) Stand (logical bound p) :=
  ((((ho.chain .product (by simp)).chain .sum (by simp)).chain .relation (by simp)).chain .logical (by simp))

end Chain

/-! ## Expressions -/

section Primary

variable {lang : Lang Tree} {p : ParseM ExprRef} {x : Tree}

theorem Finds.arguments (he : Finds bound d n lang (Stops []) Stand p)
    (hhead : ∀ {ts : List Token} {x : Tree}, lang ts x → Heads Opens ts) :
    Finds bound d n (Arguments lang) (fun _ => True) (fun s xs es => List.Forall₂ (Stand s) xs es)
      (arguments bound p) := by
  intro s ts xs rs hb hx hnext
  cases hx with
  | mk hleft hargs hright =>
    simp only [List.map_append, List.map_cons, List.map_nil, List.append_assoc, List.cons_append, List.nil_append] at hb
    refine (ends_mark hb.ahead hleft).bind fun _ s₁ h₁ _ => ?_
    have hlist := he.commaSeparated keeps_stand (.inl (by simp [Closes])) (.inl (by simp [Closes]))
      fun h => (hhead h).mono fun _ hk => hk.1
    refine (hlist (hb.past h₁) hargs ⟨_, _, rfl, hright⟩).bind fun es s₂ h₂ hes => ?_
    refine (ends_mark h₂.ahead hright).bind fun _ s₃ h₃ _ => ?_
    exact .pure h₃.ahead (hes.imp fun _ _ h => keeps_stand h₃.grows h)

/-- What stands between two marks. -/
theorem ends_enclosed (he : Finds bound d n lang (Stops []) Stand p) {left right : Token} {l r : Mark}
    (hb : Before bound d s (.ok left :: (ts.map .ok ++ .ok right :: rs))) (hleft : left.kind = .mark l)
    (hx : lang ts x) (hright : right.kind = .mark r) (hr : Closes (.mark r)) :
    Ends s rs (d + n) (fun s' e => Stand s' x e) ((do mark l; let e ← p; mark r; return e : ParseM ExprRef) s) := by
  refine (ends_mark hb.ahead hleft).bind fun _ s₁ h₁ _ => ?_
  refine (he (hb.past h₁) hx ⟨right, rs, rfl, .inl (hright ▸ hr)⟩).bind fun e s₂ h₂ hstand => ?_
  exact (ends_mark h₂.ahead hright).bind fun _ s₃ h₃ _ => .pure h₃.ahead (keeps_stand h₃.grows hstand)

/-- A name, a call of a name or a call of a method of a name. -/
theorem Finds.named (he : Finds bound d n lang (Stops []) Stand p)
    (hhead : ∀ {ts : List Token} {x : Tree}, lang ts x → Heads Opens ts) {id : Token}
    (hb : Before bound d s ((id :: ts).map .ok ++ rs)) (hx : Primary lang (id :: ts) x) {name : String}
    (hid : id.kind = .identifier name) (hnext : Next (Stops [.product, .sum, .relation, .logical]) rs) :
    Ends s rs (d + n) (fun s' e => Stand s' x e) (named bound p s) := by
  refine (ends_identifier hb.ahead hid).bind fun id' s₁ h₁ hid' => ?_
  obtain ⟨sym, place⟩ := id'
  obtain ⟨hsym, rfl⟩ := hid'
  have hb₁ := hb.past h₁
  cases hx with
  | name hk =>
    cases hid.symm.trans hk
    obtain ⟨t, rs', rfl, ht⟩ := hnext
    refine (ends_peek h₁.ahead).bind fun kind s₂ h₂ hkind => ?_
    split
    · exact absurd hkind.symm ht.plain.1
    · exact absurd hkind.symm ht.plain.2
    · exact ends_node h₂.ahead (h₂.grows.names hsym) .nil
  | call hk hargs =>
    cases hid.symm.trans hk
    obtain ⟨left, us, rfl, hleft⟩ := hargs.heads
    refine (ends_peek hb₁.ahead).bind fun kind s₂ h₂ hkind => ?_
    simp only [hkind, hleft]
    refine (he.arguments hhead (hb₁.stay h₂) hargs hnext.any).bind fun es s₃ h₃ hes => ?_
    exact ends_node h₃.ahead ((h₂.trans h₃).grows.names hsym) hes
  | methodCall hk hdot hmethod hargs =>
    cases hid.symm.trans hk
    refine (ends_peek hb₁.ahead).bind fun kind s₂ h₂ hkind => ?_
    simp only [hkind, hdot]
    refine (ends_skip h₂.ahead (by simp [hdot])).bind fun _ s₃ h₃ _ => ?_
    refine (ends_identifier h₃.ahead hmethod).bind fun x s₄ h₄ hx => ?_
    have hb₄ := ((hb₁.stay h₂).past h₃).past h₄
    refine (he.arguments hhead hb₄ hargs hnext.any).bind fun es s₅ h₅ hes => ?_
    have hgrows := (h₂.trans (h₃.trans (h₄.trans h₅))).grows
    exact ends_node h₅.ahead ⟨hgrows.names hsym, h₅.grows.names hx.1⟩ hes
  | _ => simp_all

theorem Finds.primary (he : Finds bound d n lang (Stops []) Stand p)
    (hhead : ∀ {ts : List Token} {x : Tree}, lang ts x → Heads Opens ts) :
    Finds bound d n (Primary lang) (Stops [.product, .sum, .relation, .logical]) Stand (primary bound p) := by
  intro s ts x rs hb hx hnext
  obtain ⟨t, us, rfl, -⟩ := hx.heads
  refine (ends_peekToken hb.ahead).bind fun t' s₁ h₁ ht => ?_
  subst ht
  have hb₁ := hb.stay h₁
  cases hx with
  | number hk =>
    simp only [hk]
    refine (ends_skip h₁.ahead (by simp [hk])).bind fun _ s₂ h₂ _ => ?_
    exact ends_node h₂.ahead rfl .nil
  | true hk =>
    simp only [hk]
    refine (ends_skip h₁.ahead (by simp [hk])).bind fun _ s₂ h₂ _ => ?_
    exact ends_node h₂.ahead rfl .nil
  | false hk =>
    simp only [hk]
    refine (ends_skip h₁.ahead (by simp [hk])).bind fun _ s₂ h₂ _ => ?_
    exact ends_node h₂.ahead rfl .nil
  | null hk =>
    simp only [hk]
    refine (ends_skip h₁.ahead (by simp [hk])).bind fun _ s₂ h₂ _ => ?_
    exact ends_node h₂.ahead trivial .nil
  | negative hminus hk =>
    simp only [hminus]
    refine (ends_skip h₁.ahead (by simp [hminus])).bind fun _ s₂ h₂ _ => ?_
    refine (ends_peek h₂.ahead).bind fun kind s₃ h₃ hkind => ?_
    simp only [hkind, hk]
    refine (ends_skip h₃.ahead (by simp [hk])).bind fun _ s₄ h₄ _ => ?_
    exact ends_node h₄.ahead rfl .nil
  | parenthesized hleft hx hright =>
    simp only [List.map_append, List.map_cons, List.map_nil, List.append_assoc, List.cons_append, List.nil_append]
      at hb₁
    simp only [hleft]
    exact ends_enclosed he hb₁ hleft hx hright (by simp [Closes])
  | print hk hleft hx hright =>
    simp only [List.map_append, List.map_cons, List.map_nil, List.append_assoc, List.cons_append, List.nil_append]
      at hb₁
    simp only [hk]
    refine (ends_skip hb₁.ahead (by simp [hk])).bind fun _ s₂ h₂ _ => ?_
    refine (ends_enclosed he (hb₁.past h₂) hleft hx hright (by simp [Closes])).bind fun e s₃ h₃ hstand => ?_
    exact ends_node h₃.ahead trivial (.cons hstand .nil)
  | new hk hid hargs =>
    simp only [hk]
    refine (ends_skip hb₁.ahead (by simp [hk])).bind fun _ s₂ h₂ _ => ?_
    refine (ends_identifier h₂.ahead hid).bind fun x s₃ h₃ hx => ?_
    have hb₃ := (hb₁.past h₂).past h₃
    refine (he.arguments hhead hb₃ hargs hnext.any).bind fun es s₄ h₄ hes => ?_
    obtain ⟨sym, place⟩ := x
    obtain ⟨hsym, rfl⟩ := hx
    exact ends_node h₄.ahead (h₄.grows.names hsym) hes
  | ifElse hk hc hthen hleft ht hright helse hleft' hf hright' =>
    simp only [List.map_append, List.map_cons, List.map_nil, List.append_assoc, List.cons_append, List.nil_append]
      at hb₁
    simp only [hk]
    refine (ends_skip hb₁.ahead (by simp [hk])).bind fun _ s₂ h₂ _ => ?_
    refine (he (hb₁.past h₂) hc ⟨_, _, rfl, .inl (by simp [Closes, hthen])⟩).bind fun c s₃ h₃ hc => ?_
    refine (ends_keyword h₃.ahead hthen).bind fun _ s₄ h₄ _ => ?_
    have hb₄ := ((hb₁.past h₂).behind h₃).past h₄
    refine (ends_enclosed he hb₄ hleft ht hright (by simp [Closes])).bind fun t s₅ h₅ ht => ?_
    refine (ends_keyword h₅.ahead helse).bind fun _ s₆ h₆ _ => ?_
    have hb₅ : Before bound d s₅ _ := ⟨h₅.ahead, Nat.le_trans (by simp; omega) hb₄.length_le, h₅.depth.trans hb₄.depth⟩
    refine (ends_enclosed he (hb₅.past h₆) hleft' hf hright' (by simp [Closes])).bind fun f s₇ h₇ hf => ?_
    have hc₇ := keeps_stand (h₄.trans (h₅.trans (h₆.trans h₇))).grows hc
    have ht₇ := keeps_stand (h₆.trans h₇).grows ht
    exact ends_node h₇.ahead trivial (.cons hc₇ (.cons ht₇ (.cons hf .nil)))
  | name hk =>
    simp only [hk]
    exact he.named hhead hb₁ (.name hk) hk hnext
  | call hk hargs =>
    simp only [hk]
    exact he.named hhead hb₁ (.call hk hargs) hk hnext
  | methodCall hk hdot hmethod hargs =>
    simp only [hk]
    exact he.named hhead hb₁ (.methodCall hk hdot hmethod hargs) hk hnext

end Primary

theorem finds_unary : ∀ (k : Nat) {d n : Nat}, d ≤ maxDepth → maxDepth < d + k →
    Finds bound d n (Unary n) (Stops [.product, .sum, .relation, .logical]) Stand (unary bound k)
  | 0, _, _, hd, hk => by omega
  | k + 1, d, n, hd, hk => by
    intro s ts x rs hb hx hnext
    rw [unary_eq] at hx
    cases hx with
    | primary hx =>
      obtain ⟨t, us, rfl, ht⟩ := hx.heads
      have he : Finds bound d n (Expression n) (Stops []) Stand (nested (logical bound (unary bound k))) :=
        .nested keeps_stand fun m _ hlt => (finds_unary k hlt (by omega)).logical
      refine (ends_peekToken hb.ahead).bind fun t' s₁ h₁ ht' => ?_
      rw [if_neg (by rw [ht']; exact ht.2)]
      exact he.primary Expression.heads (hb.stay h₁) hx hnext
    | not hk' hx =>
      have he : Finds bound d n (Below Unary n) (Stops [.product, .sum, .relation, .logical]) Stand
          (nested (unary bound k)) := .nested keeps_stand fun m _ hlt => finds_unary k hlt (by omega)
      refine (ends_peekToken hb.ahead).bind fun t' s₁ h₁ ht' => ?_
      subst ht'
      rw [if_pos hk']
      refine (ends_skip h₁.ahead (by simp [hk'])).bind fun _ s₂ h₂ _ => ?_
      refine (he ((hb.stay h₁).past h₂) hx hnext).bind fun e s₃ h₃ hstand => ?_
      exact ends_node h₃.ahead trivial (.cons hstand .nil)

theorem finds_expression : Finds bound d n (Expression n) (Stops []) Stand (expression bound) :=
  .nested keeps_stand fun _ _ hlt => (finds_unary maxDepth hlt (by omega)).logical

/-! ## Declarations -/

/-- The declaration is this tree. -/
def DeclStands (s : Parser) (t : DeclTree) (x : DeclRef) : Prop := t.Stands s.arena s.names x

theorem keeps_declStands : Keeps DeclStands := fun _ _ _ _ hg h => h.grows hg

/-- The function is this tree. -/
def FunctionIs (s : Parser) (t : FunctionTree) (f : Function) : Prop := t.Is s.arena s.names f

theorem keeps_functionIs : Keeps FunctionIs := fun _ _ _ _ hg h => h.grows hg

theorem ends_atDeclaration {limit : Nat} (h : Ahead s (.ok t :: rs)) :
    Ends s (.ok t :: rs) limit (fun _ b => b = true ↔ BeginsDecl t.kind) (atDeclaration s) := by
  refine (ends_peek h).bind fun kind s₁ h₁ hkind => ?_
  unfold BeginsDecl
  rw [← hkind]
  split <;> exact .pure h₁.ahead (by simp_all)

/-- A loop that goes on where an item begins: `hgo` and `hstop` say what it does with the token in front. -/
theorem ends_many {lang : Lang τ} {R : Parser → τ → α → Prop} {p : ParseM α} {loop : Nat → ParseM (List α)}
    {Begins : TokenKind → Prop} {limit : Nat} (hkeep : Keeps R)
    (hp : ∀ {s : Parser} {ts : List Token} {x : τ} {rs : List (Except ParseError Token)},
      Before bound d s (ts.map .ok ++ rs) → lang ts x → Next (fun _ => True) rs →
      Ends s rs limit (fun s' a => R s' x a) (p s))
    (hhead : ∀ {ts : List Token} {x : τ}, lang ts x → Heads Begins ts)
    (hgo : ∀ {k : Nat} {s : Parser} {t : Token} {rs rs' : List (Except ParseError Token)}
      {Q : Parser → List α → Prop}, Ahead s (.ok t :: rs) → Begins t.kind →
      (∀ s₁, Leaves s (.ok t :: rs) s₁ → Ends s₁ rs' limit Q ((do let a ← p; return a :: (← loop k)) s₁)) →
      Ends s rs' limit Q (loop (k + 1) s))
    (hstop : ∀ {k : Nat} {s : Parser} {t : Token} {rs : List (Except ParseError Token)}, Ahead s (.ok t :: rs) →
      ¬Begins t.kind → Ends s (.ok t :: rs) limit (fun _ as => as = []) (loop (k + 1) s))
    {xs : List τ} (h : Many lang ts xs) : ∀ {k : Nat} {s : Parser}, Before bound d s (ts.map .ok ++ rs) →
      (ts.map .ok ++ rs : List (Except ParseError Token)).length ≤ k → Next (fun k => ¬Begins k) rs →
      Ends s rs limit (fun s' as => List.Forall₂ (R s') xs as) (loop k s) := by
  induction h with
  | nil =>
    intro k s hb hk hnext
    obtain ⟨t, rs', rfl, ht⟩ := hnext
    obtain _ | k := k
    · simp at hk
    · exact (hstop hb.ahead ht).mono fun _ _ _ has => has ▸ .nil
  | @cons ts us x xs hx hxs ih =>
    intro k s hb hk hnext
    obtain ⟨t, vs, rfl, ht⟩ := hhead hx
    simp only [List.map_append, List.append_assoc] at hb hk
    obtain _ | k := k
    · simp at hk
    · refine hgo hb.ahead ht fun s₁ h₁ => ?_
      have hrest : Next (fun _ => True) (us.map .ok ++ rs) := by
        cases us with
        | nil => exact hnext.any
        | cons u us => exact ⟨u, _, rfl, trivial⟩
      refine (hp (hb.stay h₁) hx hrest).bind fun a s₂ h₂ ha => ?_
      have hlen : (us.map .ok ++ rs : List (Except ParseError Token)).length ≤ k := by
        simp only [List.length_append, List.length_cons, List.length_map] at hk ⊢
        omega
      refine (ih ((hb.stay h₁).behind h₂) hlen hnext).bind fun as s₃ h₃ has => ?_
      exact .pure h₃.ahead (.cons (hkeep h₃.grows ha) has)

section Declarations

variable {p : ParseM DeclRef}

theorem ends_declarationsFrom {lang : Lang DeclTree} (hd : Finds bound d n lang (fun _ => True) DeclStands p)
    (hhead : ∀ {ts : List Token} {x : DeclTree}, lang ts x → Heads BeginsDecl ts) {xs : List DeclTree}
    (h : Many lang ts xs) {k : Nat} (hb : Before bound d s (ts.map .ok ++ rs))
    (hk : (ts.map .ok ++ rs : List (Except ParseError Token)).length ≤ k) (hnext : Next (fun k => ¬BeginsDecl k) rs) :
    Ends s rs (d + n) (fun s' ds => List.Forall₂ (DeclStands s') xs ds) (declarationsFrom p k s) := by
  refine ends_many keeps_declStands (hd · · ·) hhead ?_ ?_ h hb hk hnext
  · intro k s t rs rs' Q hs ht hgo
    refine (ends_atDeclaration hs).bind fun b s₁ h₁ hbegins => ?_
    rw [if_pos (hbegins.2 ht)]
    exact hgo s₁ h₁
  · intro k s t rs hs ht
    refine (ends_atDeclaration hs).bind fun b s₁ h₁ hbegins => ?_
    rw [if_neg fun hb => ht (hbegins.1 hb)]
    exact .pure h₁.ahead rfl

theorem ends_methods {lang : Lang FunctionTree} {p : ParseM Function}
    (hf : Finds bound d n lang (fun _ => True) FunctionIs p)
    (hhead : ∀ {ts : List Token} {x : FunctionTree}, lang ts x → Heads (fun k => k = .keyword .funKw) ts)
    {xs : List FunctionTree} (h : Many lang ts xs) {k : Nat} (hb : Before bound d s (ts.map .ok ++ rs))
    (hk : (ts.map .ok ++ rs : List (Except ParseError Token)).length ≤ k)
    (hnext : Next (fun k => ¬k = .keyword .funKw) rs) :
    Ends s rs (d + n) (fun s' fs => List.Forall₂ (FunctionIs s') xs fs) (methods p k s) := by
  refine ends_many keeps_functionIs (hf · · ·) hhead ?_ ?_ h hb hk hnext
  · intro k s t rs rs' Q hs ht hgo
    refine (ends_peek hs).bind fun kind s₁ h₁ hkind => ?_
    rw [if_pos (hkind.trans ht)]
    exact hgo s₁ h₁
  · intro k s t rs hs ht
    refine (ends_peek hs).bind fun kind s₁ h₁ hkind => ?_
    rw [if_neg (by rw [hkind]; exact ht)]
    exact .pure h₁.ahead rfl

theorem Finds.letBlock {lang : Lang DeclTree} (hd : Finds bound d n lang (fun _ => True) DeclStands p)
    (hhead : ∀ {ts : List Token} {x : DeclTree}, lang ts x → Heads BeginsDecl ts) :
    Finds bound d n (LetBlock lang) (· ≠ .keyword .letKw) (fun s xs ds => List.Forall₂ (DeclStands s) xs ds)
      (letBlock bound p) := by
  intro s ts xs rs hb hx hnext
  cases hx with
  | none =>
    obtain ⟨t, rs', rfl, ht⟩ := hnext
    refine (ends_peek hb.ahead).bind fun kind s₁ h₁ hkind => ?_
    rw [if_neg (by rw [hkind]; exact ht)]
    exact .pure h₁.ahead .nil
  | @some ts us x xs klet kin hlet hx hxs hin =>
    have hmany : Many lang (ts ++ us) (x :: xs) := .cons hx hxs
    have hbegin : Heads BeginsDecl (ts ++ us) := (hhead hx).append us
    generalize ts ++ us = vs at hb hmany hbegin
    generalize x :: xs = ys at hmany
    simp only [List.map_append, List.map_cons, List.map_nil, List.append_assoc, List.cons_append, List.nil_append] at hb
    refine (ends_peek hb.ahead).bind fun kind s₁ h₁ hkind => ?_
    rw [if_pos (hkind.trans hlet)]
    refine (ends_skip h₁.ahead (by simp [hlet])).bind fun _ s₂ h₂ _ => ?_
    have hb₂ := (hb.stay h₁).past h₂
    have hread : Ends s₂ (.ok kin :: rs) (d + n) (fun s' ds => List.Forall₂ (DeclStands s') ys ds)
        (declarations bound p s₂) := by
      obtain ⟨t, ws, rfl, ht⟩ := hbegin
      refine (ends_atDeclaration hb₂.ahead).bind fun b s₃ h₃ hbegins => ?_
      rw [if_pos (hbegins.2 ht)]
      have hb₃ := hb₂.stay h₃
      exact ends_declarationsFrom hd hhead hmany hb₃ hb₃.length_le ⟨kin, rs, rfl, by simp [BeginsDecl, hin]⟩
    refine hread.bind fun ds s₃ h₃ hds => ?_
    refine (ends_keyword h₃.ahead hin).bind fun _ s₄ h₄ _ => ?_
    exact .pure h₄.ahead (hds.imp fun _ _ h => keeps_declStands h₄.grows h)

theorem keeps_members : Keeps fun s (m : Member) (x : TypedName) => m.Is s.names x := fun _ _ _ _ hg h => h.grows hg

/-- A list of parameters or fields. -/
theorem Finds.members {type : Lang TypeTree} {p : ParseM Ty}
    (ht : Finds bound d n type (fun _ => True) (fun s t ty => t.Is s.names ty) p) :
    Finds bound d n (Listed (MemberOf type)) (· = .mark .parenClose)
      (fun s xs ms => List.Forall₂ (Member.Is s.names) xs ms) (Grammar.commaSeparated bound (Grammar.typedName p)) :=
  ht.typedName.commaSeparated keeps_members trivial trivial MemberOf.heads

theorem Finds.function {lang : Nat → Lang DeclTree} (hdepth : d ≤ maxDepth)
    (hd : ∀ m, n = m + 1 → d < maxDepth → Finds bound (d + 1) m (lang m) (fun _ => True) DeclStands p)
    (hhead : ∀ {m : Nat} {ts : List Token} {x : DeclTree}, lang m ts x → Heads BeginsDecl ts) :
    Finds bound d n (FunctionDecl n (Below (fun m => LetBlock (lang m)) n)) (fun _ => True) FunctionIs
      (function bound p) := by
  intro s ts f rs hb hf _
  cases hf with
  | @mk rs' ps ls es ret params ds body kfun id colon left right semicolon name hfun hid hcolon hret hleft hparams hright
      hlocals hbody hsemicolon =>
    simp only [List.map_append, List.map_cons, List.map_nil, List.append_assoc, List.cons_append, List.nil_append] at hb
    refine (ends_location hb.ahead).bind fun place s₁ h₁ hplace => ?_
    subst hplace
    refine (ends_keyword h₁.ahead hfun).bind fun _ s₂ h₂ _ => ?_
    refine (ends_identifier h₂.ahead hid).bind fun x s₃ h₃ hx => ?_
    refine (ends_mark h₃.ahead hcolon).bind fun _ s₄ h₄ _ => ?_
    have hb₄ := (((hb.stay h₁).past h₂).past h₃).past h₄
    refine (finds_simpleType hb₄ hret ⟨left, _, rfl, trivial⟩).bind fun ty s₅ h₅ hty => ?_
    refine (ends_mark h₅.ahead hleft).bind fun _ s₆ h₆ _ => ?_
    have hb₆ := (hb₄.behind h₅).past h₆
    have htype : Finds bound d n (AnyType n) _ _ _ := finds_anyType (maxDepth + 1) hdepth (by omega)
    have hlist := htype.members
    refine (hlist hb₆ hparams ⟨right, _, rfl, hright⟩).bind fun members s₇ h₇ hmembers => ?_
    refine (ends_mark h₇.ahead hright).bind fun _ s₈ h₈ _ => ?_
    have hb₈ := (hb₆.behind h₇).past h₈
    have hblock : Finds bound d n (Below (fun m => LetBlock (lang m)) n) (· ≠ .keyword .letKw)
        (fun s xs ds => List.Forall₂ (DeclStands s) xs ds) (Parser.nested (Grammar.letBlock bound p)) :=
      .nested (fun _ _ _ _ hg h => h.imp fun _ _ h => keeps_declStands hg h)
        fun m hm hlt => (hd m hm hlt).letBlock hhead
    have hopens := Next.of_heads (hbody.heads.mono fun _ hk => hk.2) (.ok semicolon :: rs)
    refine (hblock hb₈ hlocals hopens).bind fun locals s₉ h₉ hlocals' => ?_
    have hb₉ := hb₈.behind h₉
    refine (finds_expression hb₉ hbody ⟨semicolon, rs, rfl, .inl (by simp [Closes, hsemicolon])⟩).bind
      fun e s₁₀ h₁₀ he => ?_
    refine (ends_mark h₁₀.ahead hsemicolon).bind fun _ s₁₁ h₁₁ _ => ?_
    have g₁₁ := h₁₁.grows
    have g₉ := h₁₀.grows.trans g₁₁
    have g₇ := h₈.grows.trans (h₉.grows.trans g₉)
    have g₅ := h₆.grows.trans (h₇.grows.trans g₇)
    have g₃ := h₄.grows.trans (h₅.grows.trans g₅)
    exact .pure h₁₁.ahead ⟨g₃.names hx.1, hty.grows g₅, hmembers.imp fun _ _ h => h.grows g₇,
      DeclTree.standAll_iff.2 (hlocals'.imp fun _ _ h => h.grows g₉), he.grows g₁₁, rfl⟩

theorem ends_classDecl {lang : Nat → Lang DeclTree} (hdepth : d ≤ maxDepth)
    (hd : ∀ m, n = m + 1 → d < maxDepth → Finds bound (d + 1) m (lang m) (fun _ => True) DeclStands p)
    (hhead : ∀ {m : Nat} {ts : List Token} {x : DeclTree}, lang m ts x → Heads BeginsDecl ts) {fs ms : List Token}
    {fields : List Member} {trees : List FunctionTree} {kclass id left right left' right' : Token} {name : String}
    (hclass : kclass.kind = .keyword .classKw) (hid : id.kind = .identifier name) (hleft : left.kind = .mark .parenOpen)
    (hfields : Listed (MemberOf SimpleType) fs fields) (hright : right.kind = .mark .parenClose)
    (hleft' : left'.kind = .mark .braceOpen)
    (hmethods : Many (FunctionDecl n (Below (fun m => LetBlock (lang m)) n)) ms trees)
    (hright' : right'.kind = .mark .braceClose)
    (hb : Before bound d s ((kclass :: id :: left :: (fs ++ right :: left' :: (ms ++ [right']))).map .ok ++ rs)) :
    Ends s rs (d + n) (fun s' c => s'.names.find? name = some c.name ∧
      List.Forall₂ (Member.Is s'.names) fields c.fields ∧ List.Forall₂ (FunctionIs s') trees c.methods ∧
      c.location = some kclass.location) (classDecl bound p s) := by
  simp only [List.map_append, List.map_cons, List.map_nil, List.append_assoc, List.cons_append, List.nil_append] at hb
  refine (ends_location hb.ahead).bind fun place s₁ h₁ hplace => ?_
  subst hplace
  refine (ends_keyword h₁.ahead hclass).bind fun _ s₂ h₂ _ => ?_
  refine (ends_identifier h₂.ahead hid).bind fun x s₃ h₃ hx => ?_
  refine (ends_mark h₃.ahead hleft).bind fun _ s₄ h₄ _ => ?_
  have hb₄ := (((hb.stay h₁).past h₂).past h₃).past h₄
  refine (finds_simpleType.members hb₄ hfields ⟨right, _, rfl, hright⟩).bind fun members s₅ h₅ hmembers => ?_
  refine (ends_mark h₅.ahead hright).bind fun _ s₆ h₆ _ => ?_
  refine (ends_mark h₆.ahead hleft').bind fun _ s₇ h₇ _ => ?_
  have hb₇ := ((hb₄.behind h₅).past h₆).past h₇
  refine (ends_methods (Finds.function hdepth hd hhead) FunctionDecl.heads hmethods hb₇ hb₇.length_le
    ⟨right', rs, rfl, by simp [hright']⟩).bind fun fns s₈ h₈ hfns => ?_
  refine (ends_mark h₈.ahead hright').bind fun _ s₉ h₉ _ => ?_
  have g₅ := h₆.grows.trans (h₇.grows.trans (h₈.grows.trans h₉.grows))
  exact .pure h₉.ahead ⟨(h₄.grows.trans (h₅.grows.trans g₅)).names hx.1, hmembers.imp fun _ _ h => h.grows g₅,
    hfns.imp fun _ _ h => keeps_functionIs h₉.grows h, rfl⟩

theorem ends_variableDecl (hdepth : d ≤ maxDepth) {ys es : List Token} {type : TypeTree} {init : Tree}
    {kvar id colon assign semicolon : Token} {name : String} (hvar : kvar.kind = .keyword .varKw)
    (hid : id.kind = .identifier name) (hcolon : colon.kind = .mark .colon) (htype : AnyType n ys type)
    (hassign : assign.kind = .mark .assign) (hinit : Expression n es init) (hsemicolon : semicolon.kind = .mark .semicolon)
    (hb : Before bound d s ((kvar :: id :: colon :: (ys ++ assign :: (es ++ [semicolon]))).map .ok ++ rs)) :
    Ends s rs (d + n) (fun s' v => s'.names.find? name = some v.name ∧ type.Is s'.names v.ty ∧
      Stand s' init v.init ∧ v.location = some kvar.location) (variableDecl bound s) := by
  simp only [List.map_append, List.map_cons, List.map_nil, List.append_assoc, List.cons_append, List.nil_append] at hb
  refine (ends_location hb.ahead).bind fun place s₁ h₁ hplace => ?_
  subst hplace
  refine (ends_keyword h₁.ahead hvar).bind fun _ s₂ h₂ _ => ?_
  refine (ends_identifier h₂.ahead hid).bind fun x s₃ h₃ hx => ?_
  refine (ends_mark h₃.ahead hcolon).bind fun _ s₄ h₄ _ => ?_
  have hb₄ := (((hb.stay h₁).past h₂).past h₃).past h₄
  refine (finds_anyType (maxDepth + 1) hdepth (by omega) hb₄ htype ⟨assign, _, rfl, trivial⟩).bind
    fun ty s₅ h₅ hty => ?_
  refine (ends_mark h₅.ahead hassign).bind fun _ s₆ h₆ _ => ?_
  refine (finds_expression ((hb₄.behind h₅).past h₆) hinit
    ⟨semicolon, rs, rfl, .inl (by simp [Closes, hsemicolon])⟩).bind fun e s₇ h₇ he => ?_
  refine (ends_mark h₇.ahead hsemicolon).bind fun _ s₈ h₈ _ => ?_
  have g₅ := h₆.grows.trans (h₇.grows.trans h₈.grows)
  exact .pure h₈.ahead ⟨(h₄.grows.trans (h₅.grows.trans g₅)).names hx.1, hty.grows g₅, keeps_stand h₈.grows he, rfl⟩

theorem Declaration.heads {n : Nat} {ts : List Token} {x : DeclTree} (h : Declaration n ts x) : Heads BeginsDecl ts := by
  rw [declaration_eq] at h
  exact DeclOver.heads h

theorem finds_declaration : ∀ (k : Nat) {d n : Nat}, d ≤ maxDepth → maxDepth < d + k →
    Finds bound d n (Declaration n) (fun _ => True) DeclStands (declaration bound k)
  | 0, _, _, hd, hk => by omega
  | k + 1, d, n, hd, hk => by
    intro s ts x rs hb hx hnext
    have hin : ∀ m, n = m + 1 → d < maxDepth →
        Finds bound (d + 1) m (Declaration m) (fun _ => True) DeclStands (declaration bound k) :=
      fun m _ hlt => finds_declaration k hlt (by omega)
    rw [declaration_eq] at hx
    cases hx with
    | var hvar hid hcolon htype hassign hinit hsemicolon =>
      refine (ends_peek hb.ahead).bind fun kind s₁ h₁ hkind => ?_
      simp only [hkind, hvar]
      refine (ends_variableDecl hd hvar hid hcolon htype hassign hinit hsemicolon (hb.stay h₁)).bind
        fun v s₂ h₂ ⟨hname, hty, hstand, hplace⟩ => ?_
      refine (ends_addDecl h₂.ahead).mono fun x s₃ h₃ hx => ?_
      exact ⟨v, hx, h₃.grows.names hname, hty.grows h₃.grows, keeps_stand h₃.grows hstand, hplace⟩
    | function hf =>
      obtain ⟨t, us, rfl, ht⟩ := hf.heads
      refine (ends_peek hb.ahead).bind fun kind s₁ h₁ hkind => ?_
      simp only [hkind, ht]
      refine (Finds.function hd hin Declaration.heads (hb.stay h₁) hf hnext).bind fun f s₂ h₂ hfn => ?_
      exact (ends_addDecl h₂.ahead).mono fun x s₃ h₃ hx => ⟨f, hx, keeps_functionIs h₃.grows hfn⟩
    | cls hclass hid hleft hfields hright hleft' hmethods hright' =>
      refine (ends_peek hb.ahead).bind fun kind s₁ h₁ hkind => ?_
      simp only [hkind, hclass]
      refine (ends_classDecl hd hin Declaration.heads hclass hid hleft hfields hright hleft' hmethods hright'
        (hb.stay h₁)).bind fun c s₂ h₂ ⟨hname, hfs, hms, hplace⟩ => ?_
      refine (ends_addDecl h₂.ahead).mono fun x s₃ h₃ hx => ?_
      exact ⟨c, hx, h₃.grows.names hname, hfs.imp fun _ _ h => h.grows h₃.grows,
        FunctionTree.areAll_iff.2 (hms.imp fun _ _ h => keeps_functionIs h₃.grows h), hplace⟩

end Declarations

end Grammar

/-- The program read is this tree; or constructs are nested too deep, and `n` is more levels than there may be. -/
def Parser.Gives (n : Nat) (x : Syntax.ProgramTree) : EStateM.Result ParseError Parser Program → Prop
  | .ok p s => x.Is s.names p
  | .error e _ => e.cause = .recursionLimit maxDepth ∧ maxDepth < n

/-- **Completeness.** A whole program is accepted and its tree is the derived one, unless constructs are nested deeper
than they may be, for which the derivation has to open more levels. -/
theorem Parser.ends_program {n : Nat} {s : Parser} {ts : List Token} {x : Syntax.ProgramTree} (h : Ahead s (ts.map .ok))
    (hdepth : s.depth = 0) (hlen : ts.length ≤ s.tokens.buffer.length + s.tokens.source.rest.length + 1)
    (hx : Syntax.Whole n ts x) : Gives n x (program s) := by
  cases hx with
  | @mk ts us ds body semicolon stop hds hbody hsemicolon hstop =>
    have hb : Grammar.Before (s.tokens.buffer.length + s.tokens.source.rest.length + 1) 0 s
        (ts.map .ok ++ (us.map .ok ++ [.ok semicolon, .ok stop])) := by
      refine ⟨?_, ?_, hdepth⟩
      · simpa using h
      · simpa using hlen
    generalize hbound : s.tokens.buffer.length + s.tokens.source.rest.length + 1 = bound at hb
    have hrun : program s = (do
        let declarations ← Grammar.letBlock bound (Grammar.declaration bound (maxDepth + 1))
        let body ← Grammar.expression bound
        mark .semicolon
        let _ ← expect .endOfInput
        return ⟨(← get).arena, declarations, body⟩ : ParseM Program) s := hbound ▸ rfl
    rw [hrun]
    have hlimit : 0 + n = n := Nat.zero_add n
    have hdecl : Grammar.Finds bound 0 n (Syntax.Declaration n) _ _ _ :=
      Grammar.finds_declaration (maxDepth + 1) (Nat.zero_le _) (by omega)
    have hblock := hdecl.letBlock Grammar.Declaration.heads
    have hopens := Grammar.Next.of_heads (hbody.heads.mono fun _ hk => hk.2) [.ok semicolon, .ok stop]
    refine (hblock hb hds hopens).elim (fun ds' s₁ h₁ hds' => ?_) fun e s' he hn => ⟨he, hlimit ▸ hn⟩
    refine (Grammar.finds_expression (hb.behind h₁) hbody
      ⟨semicolon, _, rfl, .inl (by simp [Grammar.Closes, hsemicolon])⟩).elim (fun e s₂ h₂ he => ?_)
      fun e s' he hn => ⟨he, hlimit ▸ hn⟩
    refine (ends_mark h₂.ahead hsemicolon).elim (fun _ s₃ h₃ _ => ?_) fun e s' he hn => ⟨he, hn⟩
    obtain ⟨tokens, hend⟩ := run_expect_end h₃.ahead hstop
    simp only [bind, EStateM.bind, hend]
    refine ⟨Syntax.DeclTree.standAll_iff.2 (hds'.imp fun _ _ h => ?_), ?_⟩
    · exact Grammar.keeps_declStands (h₂.trans h₃).grows h
    · exact Grammar.keeps_stand h₃.grows he

/-! ## Whole texts -/

section Parse

variable {text : String} {names : Names}

theorem ahead_ofText : (Parser.ofText text names).Ahead (Cursor.ofString text).readAll := .unread rfl

theorem length_answers_le : (Cursor.ofString text).readAll.length ≤ (Cursor.ofString text).rest.length + 1 :=
  Cursor.length_readAll_le _

theorem gives_of_whole {n : Nat} {tokens : List Token} {tree : Syntax.ProgramTree}
    (htokens : (Cursor.ofString text).readAll = tokens.map .ok) (h : Syntax.Whole n tokens tree) :
    Parser.Gives n tree (Parser.program (.ofText text names)) := by
  have hlen : (Cursor.ofString text).readAll.length ≤ _ := length_answers_le
  rw [htokens, List.length_map] at hlen
  refine Parser.ends_program (htokens ▸ ahead_ofText) rfl (Nat.le_trans hlen ?_) h
  simp [Parser.ofText, Lookahead.ofSource]

theorem whole_of_parse {p : Program} (h : (Program.parse text names).1 = .ok p) :
    ∃ tokens tree, (Cursor.ofString text).readAll = tokens.map .ok ∧ Syntax.Whole Parser.maxDepth tokens tree := by
  unfold Program.parse at h
  split at h
  · refine Parser.whole_of_program ahead_ofText rfl (Nat.le_trans length_answers_le ?_) ‹_›
    simp [Parser.ofText, Lookahead.ofSource]
  · cases h

end Parse

/-- **The parser accepts exactly its grammar.** Where a text is read without a lexical fault as some tokens, it is accepted
just if they are a whole program with at most `maxDepth` levels of nesting, and the program is then the tree of every
derivation; tokens that are a whole program only with more levels are refused as nested too deep, and those that are
none are refused as well. A text with a lexical fault anywhere is never accepted. -/
theorem parse_iff_whole (text : String) (names : Names) :
    (∀ tokens : List Token, (Cursor.ofString text).readAll = tokens.map .ok →
      ((∃ p, (Program.parse text names).1 = .ok p) ↔ ∃ tree, Syntax.Whole Parser.maxDepth tokens tree) ∧
      (∀ p n tree, (Program.parse text names).1 = .ok p → Syntax.Whole n tokens tree →
        tree.Is (Program.parse text names).2 p) ∧
      ((∃ n tree, Syntax.Whole n tokens tree) → (¬∃ tree, Syntax.Whole Parser.maxDepth tokens tree) →
        ∃ place, (Program.parse text names).1 = .error ⟨.recursionLimit Parser.maxDepth, place⟩) ∧
      ((¬∃ n tree, Syntax.Whole n tokens tree) → ∃ e, (Program.parse text names).1 = .error e)) ∧
    ((∃ e, Except.error e ∈ (Cursor.ofString text).readAll) → ∃ e, (Program.parse text names).1 = .error e) := by
  have refused : (¬∃ p, (Program.parse text names).1 = .ok p) → ∃ e, (Program.parse text names).1 = .error e := by
    intro hno
    cases hp : (Program.parse text names).1 with
    | ok p => exact absurd ⟨p, hp⟩ hno
    | error e => exact ⟨e, rfl⟩
  refine ⟨fun tokens htokens => ?_, fun ⟨e, he⟩ => refused fun ⟨p, hp⟩ => ?_⟩
  · have derived : ∀ p, (Program.parse text names).1 = .ok p → ∃ tree, Syntax.Whole Parser.maxDepth tokens tree := by
      intro p hp
      obtain ⟨tokens', tree, htokens', hwhole⟩ := whole_of_parse hp
      obtain rfl := List.map_injective_iff.2 (fun _ _ h => Except.ok.inj h) (htokens.symm.trans htokens')
      exact ⟨tree, hwhole⟩
    refine ⟨⟨fun ⟨p, hp⟩ => derived p hp, fun ⟨tree, hwhole⟩ => ?_⟩, fun p n tree hp hwhole => ?_, ?_, ?_⟩
    · have hgives : Parser.Gives _ tree (Parser.program (.ofText text names)) := gives_of_whole htokens hwhole
      unfold Program.parse
      cases hrun : Parser.program (.ofText text names) with
      | ok p s => exact ⟨p, rfl⟩
      | error e s =>
        rw [hrun] at hgives
        exact absurd hgives.2 (Nat.lt_irrefl _)
    · have hgives : Parser.Gives _ tree (Parser.program (.ofText text names)) := gives_of_whole htokens hwhole
      unfold Program.parse at hp ⊢
      cases hrun : Parser.program (.ofText text names) with
      | ok q s =>
        rw [hrun] at hgives hp
        cases hp
        exact hgives
      | error e s =>
        rw [hrun] at hp
        cases hp
    · intro ⟨n, tree, hwhole⟩ hdeep
      have hgives : Parser.Gives _ tree (Parser.program (.ofText text names)) := gives_of_whole htokens hwhole
      unfold Program.parse
      cases hrun : Parser.program (.ofText text names) with
      | ok p s => exact absurd (derived p (by rw [Program.parse, hrun])) hdeep
      | error e s =>
        rw [hrun] at hgives
        obtain ⟨cause, place⟩ := e
        obtain rfl : cause = .recursionLimit Parser.maxDepth := hgives.1
        exact ⟨place, rfl⟩
    · exact fun hnone => refused fun ⟨p, hp⟩ => hnone ⟨Parser.maxDepth, derived p hp⟩
  · obtain ⟨tokens, tree, htokens, -⟩ := whole_of_parse hp
    rw [htokens] at he
    obtain ⟨t, -, ht⟩ := List.mem_map.1 he
    cases ht

/-- A negation is accepted, and a text with a stray sign is not. -/
theorem parse_iff_whole_negation : (∃ p, (Program.parse "!true;" .empty).1 = .ok p) ∧
    ∃ e, (Program.parse "true $;" .empty).1 = .error e := by
  have htokens : (Cursor.ofString "!true;").readAll =
      [⟨.mark .not, ⟨1, 1, 0⟩, 1⟩, ⟨.keyword .trueKw, ⟨1, 2, 1⟩, 5⟩, ⟨.mark .semicolon, ⟨1, 6, 5⟩, 6⟩,
        ⟨.endOfInput, ⟨1, 7, 6⟩, 6⟩].map .ok := by
    decide +kernel
  have hstray : Except.error ⟨.unexpectedCharacter '$', ⟨1, 6, 5⟩⟩ ∈ (Cursor.ofString "true $;").readAll := by
    rw [show (Cursor.ofString "true $;").readAll = [.ok ⟨.keyword .trueKw, ⟨1, 1, 0⟩, 4⟩,
      .error ⟨.unexpectedCharacter '$', ⟨1, 6, 5⟩⟩, .ok ⟨.mark .semicolon, ⟨1, 7, 6⟩, 7⟩,
      .ok ⟨.endOfInput, ⟨1, 8, 7⟩, 7⟩] by decide +kernel]
    exact .tail _ (.head _)
  have hnot : Syntax.Expression 64 [⟨.mark .not, ⟨1, 1, 0⟩, 1⟩, ⟨.keyword .trueKw, ⟨1, 2, 1⟩, 5⟩]
      (.node .not ⟨1, 1, 0⟩ [.node (.bool true) ⟨1, 2, 1⟩ []]) :=
    .operand (.operand (.operand (.operand (.not rfl (.primary (.true rfl))))))
  have hsemicolon : (⟨.mark .semicolon, ⟨1, 6, 5⟩, 6⟩ : Token).kind = .mark .semicolon := rfl
  have hstop : (⟨.endOfInput, ⟨1, 7, 6⟩, 6⟩ : Token).kind = .endOfInput := rfl
  exact ⟨((parse_iff_whole "!true;" .empty).1 _ htokens).1.2 ⟨_, .mk .none hnot hsemicolon hstop⟩,
    (parse_iff_whole "true $;" .empty).2 ⟨_, hstray⟩⟩

end Fool
