import Fool.Proofs.Parse.Stream
import Fool.Proofs.Placing.Tree
import Fool.Proofs.Token.Rules

/-!
# Reading the same tokens at other places

Two parsers are `Alike` before the same answers if nothing but places distinguishes them. Steps are `InStep` if on such
parsers they give the same value up to places, or the same fault, and leave parsers that are alike. Every step of the
grammar is in step with itself, also if the two bounds on lists and chains differ: a loop takes a token in each round, so
that no bound is reached while answers are left. Therefore texts whose answers say the same have the same tree up to places
(`parse_readings`).
-/

namespace Fool

namespace Parser

open Lexer

variable {α β γ δ : Type}

/-- What the answers in front of a parser say. -/
abbrev Readings := List (Except ParseError.Cause TokenKind)

/-- The parsers stand before answers that say `rs`, and differ in places alone. -/
structure Alike (rs : Readings) (s s' : Parser) : Prop where
  left : ∃ as, Ahead s as ∧ as.map reading = rs
  right : ∃ as, Ahead s' as ∧ as.map reading = rs
  arena : s.arena.unplaced = s'.arena.unplaced
  names : s.names = s'.names
  depth : s.depth = s'.depth

/-- The outcomes agree: values with the same view and parsers alike before `n` answers at most, or the same fault. -/
inductive Agree (n : Nat) (v : α → γ) : EStateM.Result ParseError Parser α → EStateM.Result ParseError Parser α → Prop
  | ok {a a' : α} {rs : Readings} {s s' : Parser} : v a = v a' → rs.length ≤ n → Alike rs s s' →
      Agree n v (.ok a s) (.ok a' s')
  | error {e e' : ParseError} {s s' : Parser} : e.cause = e'.cause → s.names = s'.names →
      Agree n v (.error e s) (.error e' s')

/-- Before at most `n` answers, of which the first is `k` if it is given, the steps agree and take at least `c` tokens. -/
def InStep (n : Nat) (k? : Option TokenKind) (c : Nat) (v : α → γ) (p p' : ParseM α) : Prop :=
  ∀ ⦃rs s s'⦄, rs.length ≤ n → (∀ k ∈ k?, rs.head? = some (.ok k)) → Alike rs s s' → Agree (rs.length - c) v (p s) (p' s')

variable {n m c d : Nat} {k : TokenKind} {k? : Option TokenKind} {v : α → γ} {w : β → δ} {p p' : ParseM α}
  {rs : Readings} {s s' : Parser}

theorem Alike.ne_nil (h : Alike rs s s') : rs ≠ [] := by
  obtain ⟨as, hahead, rfl⟩ := h.left
  exact fun hnil => hahead.ne_nil (List.map_eq_nil_iff.1 hnil)

theorem head_none : ∀ k ∈ (none : Option TokenKind), rs.head? = some (.ok k) :=
  fun k hk => absurd hk (Option.not_mem_none k)

namespace InStep

/-- There is always an answer. -/
theorem zero : InStep 0 k? c v p p' := fun _ _ _ hn _ h => absurd (List.length_eq_zero_iff.1 (Nat.le_zero.1 hn)) h.ne_nil

theorem any (h : InStep n none c v p p') : InStep n k? c v p p' := fun _ _ _ hn _ => h hn head_none

theorem mono (h : InStep n k? c v p p') (hm : m ≤ n) : InStep m k? c v p p' :=
  fun _ _ _ hn => h (hn.trans hm)

theorem weaken (h : InStep n k? c v p p') (hd : d ≤ c) : InStep n k? d v p p' := by
  intro rs s s' hn hk halike
  have hagree := h hn hk halike
  generalize p s = answer, p' s' = answer' at hagree ⊢
  cases hagree with
  | ok hv hlen hrs => exact .ok hv (hlen.trans (Nat.sub_le_sub_left hd _)) hrs
  | error he hnames => exact .error he hnames

theorem pure {a a' : α} (h : v a = v a') : InStep n k? 0 v (Pure.pure a) (Pure.pure a') :=
  fun _ _ _ _ _ halike => .ok h (Nat.le_refl _) halike

theorem throw {e e' : ParseError} (h : e.cause = e'.cause) :
    InStep n k? c v (throw e : ParseM α) (MonadExcept.throw e') := fun _ _ _ _ _ halike => .error h halike.names

theorem ite {b : Prop} [Decidable b] {q q' : ParseM α} (hp : b → InStep n k? c v p p')
    (hq : ¬b → InStep n k? c v q q') : InStep n k? c v (if b then p else q) (if b then p' else q') := by
  split
  · exact hp ‹_›
  · exact hq ‹_›

/-- What the first step takes is not in front of the second. -/
theorem bind_add {f f' : α → ParseM β} (hp : InStep n k? c v p p')
    (hf : ∀ a a', v a = v a' → InStep (n - c) none d w (f a) (f' a')) : InStep n k? (c + d) w (p >>= f) (p' >>= f') := by
  intro rs s s' hn hk halike
  have hagree := hp hn hk halike
  show Agree _ _ (EStateM.bind p f s) (EStateM.bind p' f' s')
  unfold EStateM.bind
  generalize p s = answer, p' s' = answer' at hagree ⊢
  cases hagree with
  | @ok a a' _ s₁ s₁' hv hlen hrs =>
    have hnext := hf _ _ hv (hlen.trans (Nat.sub_le_sub_right hn c)) head_none hrs
    dsimp only
    generalize f a s₁ = answer, f' a' s₁' = answer' at hnext ⊢
    cases hnext with
    | ok hw hlen' hrs' => exact .ok hw (hlen'.trans (by omega)) hrs'
    | error he hnames => exact .error he hnames
  | error he hnames => exact .error he hnames

theorem bind {f f' : α → ParseM β} (hp : InStep n k? c v p p')
    (hf : ∀ a a', v a = v a' → InStep n none 0 w (f a) (f' a')) : InStep n k? c w (p >>= f) (p' >>= f') :=
  hp.bind_add fun a a' h => (hf a a' h).mono (Nat.sub_le n c)

/-- Behind a step that takes a token there are fewer answers. -/
theorem bind_lt {f f' : α → ParseM β} (hp : InStep n k? 1 v p p')
    (hf : ∀ a a', v a = v a' → InStep (n - 1) none 0 w (f a) (f' a')) : InStep n k? 0 w (p >>= f) (p' >>= f') :=
  (hp.bind_add (d := 0) hf).weaken (Nat.zero_le 1)

/-- What follows equal values starts from one of them. -/
theorem bind_id {f f' : α → ParseM β} (hp : InStep n k? c id p p') (hf : ∀ a, InStep n none 0 w (f a) (f' a)) :
    InStep n k? c w (p >>= f) (p' >>= f') := hp.bind fun a a' h => (show a = a' from h) ▸ hf a

theorem before {f f' : α → ParseM β} (hp : InStep n k? 0 v p p')
    (hf : ∀ a a', v a = v a' → InStep n none c w (f a) (f' a')) : InStep n k? c w (p >>= f) (p' >>= f') :=
  (hp.bind_add hf).weaken (Nat.le_add_left c 0)

end InStep

/-! ## Tokens -/

/-- The current tokens are of one kind, or there is the same fault. -/
theorem Alike.peekToken (h : Alike rs s s') :
    (∃ t t' tokens tokens', t.kind = t'.kind ∧ rs.head? = some (.ok t.kind) ∧
      peekToken s = .ok t { s with tokens } ∧ peekToken s' = .ok t' { s' with tokens := tokens' } ∧
      Alike rs { s with tokens } { s' with tokens := tokens' }) ∨
    ∃ e e' tokens tokens', e.cause = e'.cause ∧ peekToken s = .error e { s with tokens } ∧
      peekToken s' = .error e' { s' with tokens := tokens' } := by
  obtain ⟨_ | ⟨a, as⟩, hleft, rfl⟩ := h.left
  · exact absurd rfl hleft.ne_nil
  obtain ⟨_ | ⟨a', as'⟩, hright, hsame⟩ := h.right
  · exact absurd rfl hright.ne_nil
  obtain ⟨hhead, htail⟩ := List.cons.inj hsame
  obtain ⟨tokens, hrun⟩ := peekToken_run hleft
  obtain ⟨tokens', hrun'⟩ := peekToken_run hright
  cases a with
  | ok t =>
    cases a' with
    | ok t' =>
      refine .inl ⟨t, t', tokens, tokens', (Except.ok.inj hhead).symm, rfl, hrun.1, hrun'.1, ?_⟩
      exact ⟨⟨_, hrun.2, rfl⟩, ⟨_, hrun'.2, hsame⟩, h.arena, h.names, h.depth⟩
    | error e' => cases hhead
  | error e =>
    cases a' with
    | ok t' => cases hhead
    | error e' => exact .inr ⟨e, e', tokens, tokens', (Except.error.inj hhead).symm, hrun, hrun'⟩

/-- Taking the current tokens leaves the parsers alike, if they are not the end of the input. -/
theorem Alike.advance (h : Alike (.ok k :: rs) s s') : ∃ t t' tokens tokens', t.kind = k ∧ t'.kind = k ∧
    advance s = .ok t { s with tokens } ∧ advance s' = .ok t' { s' with tokens := tokens' } ∧
    (k ≠ .endOfInput → Alike rs { s with tokens } { s' with tokens := tokens' }) := by
  obtain ⟨as, hleft, hmap⟩ := h.left
  obtain ⟨a, as, rfl, ha, has⟩ := List.map_eq_cons_iff.1 hmap
  obtain ⟨as', hright, hmap'⟩ := h.right
  obtain ⟨a', as', rfl, ha', has'⟩ := List.map_eq_cons_iff.1 hmap'
  cases a with
  | error e => cases ha
  | ok t =>
    cases a' with
    | error e => cases ha'
    | ok t' =>
      cases ha
      obtain ⟨tokens, hrun, hahead⟩ := advance_run hleft
      obtain ⟨tokens', hrun', hahead'⟩ := advance_run hright
      have hkind : t'.kind = t.kind := Except.ok.inj ha'
      refine ⟨t, t', tokens, tokens', rfl, hkind, hrun, hrun', fun hend => ?_⟩
      exact ⟨⟨_, hahead hend, has⟩, ⟨_, hahead' (hkind ▸ hend), has'⟩, h.arena, h.names, h.depth⟩

/-- What follows a look at the current token knows what it is. -/
theorem InStep.peekToken {f f' : Token → ParseM β}
    (hf : ∀ t t', t.kind = t'.kind → InStep n (some t.kind) c w (f t) (f' t')) :
    InStep n k? c w (peekToken >>= f) (Parser.peekToken >>= f') := by
  intro rs s s' hn hk halike
  show Agree _ _ (EStateM.bind Parser.peekToken f s) (EStateM.bind Parser.peekToken f' s')
  unfold EStateM.bind
  obtain ⟨t, t', tokens, tokens', hkind, hhead, hrun, hrun', halike'⟩ | ⟨e, e', tokens, tokens', he, hrun, hrun'⟩ :=
    halike.peekToken
  · rw [hrun, hrun']
    exact hf t t' hkind hn (fun k hk => by cases hk; exact hhead) halike'
  · rw [hrun, hrun']
    exact .error he halike.names

theorem InStep.peek {f f' : TokenKind → ParseM β} (hf : ∀ kind, InStep n (some kind) c w (f kind) (f' kind)) :
    InStep n k? c w (peek >>= f) (Parser.peek >>= f') := by
  have hpeek : ∀ f : TokenKind → ParseM β, Parser.peek >>= f = Parser.peekToken >>= fun t => f t.kind := fun f => by
    simp [Parser.peek]
  rw [hpeek, hpeek]
  exact .peekToken fun t t' hkind => hkind ▸ hf t.kind

theorem inStep_location : InStep n k? 0 (fun _ => ()) location location := .peekToken fun _ _ _ => .pure rfl

theorem inStep_advance (hk : k ≠ .endOfInput) : InStep n (some k) 1 Token.kind advance advance := by
  intro rs s s' _ hhead halike
  obtain ⟨rs, rfl⟩ := List.head?_eq_some_iff.1 (hhead k rfl)
  obtain ⟨t, t', tokens, tokens', ht, ht', hrun, hrun', hnext⟩ := halike.advance
  rw [hrun, hrun']
  exact .ok (ht.trans ht'.symm) (Nat.le_refl _) (hnext hk)

theorem inStep_skip (hk : k ≠ .endOfInput) : InStep n (some k) 1 id skip skip :=
  (inStep_advance hk).bind fun _ _ _ => .pure rfl

theorem InStep.skip_lt {f f' : Unit → ParseM β} (hk : k ≠ .endOfInput) (hf : InStep (n - 1) none 0 w (f ()) (f' ())) :
    InStep n (some k) 0 w (skip >>= f) (Parser.skip >>= f') := (inStep_skip hk).bind_lt fun _ _ _ => hf

theorem InStep.skip {f f' : Unit → ParseM β} (hk : k ≠ .endOfInput) (hf : InStep n none 0 w (f ()) (f' ())) :
    InStep n (some k) 0 w (Parser.skip >>= f) (Parser.skip >>= f') :=
  .skip_lt hk (hf.mono (Nat.sub_le n 1))

theorem inStep_refuse (expected : String) : InStep n k? c v (refuse expected) (refuse expected) := by
  have hunexpected : InStep n k? 0 ParseError.cause (unexpected expected) (unexpected expected) :=
    .peekToken fun t t' hkind => .pure (congrArg (ParseError.Cause.unexpectedToken expected) hkind)
  exact hunexpected.before fun e e' he => .throw he

theorem inStep_expect (hk : k ≠ .endOfInput) : InStep n k? 1 Token.kind (expect k) (expect k) := by
  refine .peek fun kind => .ite (fun h => ?_) fun _ => inStep_refuse _
  subst h
  exact inStep_advance hk

theorem inStep_mark (m : Mark) : InStep n k? 1 id (mark m) (mark m) :=
  (inStep_expect (k := .mark m) nofun).bind fun _ _ _ => .pure rfl

theorem inStep_keyword (x : Keyword) : InStep n k? 1 id (keyword x) (keyword x) :=
  (inStep_expect (k := .keyword x) nofun).bind fun _ _ _ => .pure rfl

/-- What has to stand here and is passed over adds nothing. -/
theorem InStep.mark {m : Mark} {f f' : Unit → ParseM β} (hf : InStep n none 0 w (f ()) (f' ())) :
    InStep n k? 0 w (mark m >>= f) (Parser.mark m >>= f') := ((inStep_mark m).bind fun _ _ _ => hf).weaken (Nat.zero_le 1)

theorem InStep.keyword {x : Keyword} {f f' : Unit → ParseM β} (hf : InStep n none 0 w (f ()) (f' ())) :
    InStep n k? 0 w (keyword x >>= f) (Parser.keyword x >>= f') :=
  ((inStep_keyword x).bind fun _ _ _ => hf).weaken (Nat.zero_le 1)

/-! ## Names and nodes -/

/-- Before the same answers, parsers stay alike with other trees, names and depths that are alike. -/
theorem Alike.with (h : Alike rs s s') {arena arena' : Arena} {names names' : Names} {depth depth' : Nat}
    (harena : arena.unplaced = arena'.unplaced) (hnames : names = names') (hdepth : depth = depth') :
    Alike rs ⟨s.tokens, arena, names, depth⟩ ⟨s'.tokens, arena', names', depth'⟩ := by
  obtain ⟨as, hleft, has⟩ := h.left
  obtain ⟨as', hright, has'⟩ := h.right
  exact ⟨⟨as, hleft.congr rfl, has⟩, ⟨as', hright.congr rfl, has'⟩, harena, hnames, hdepth⟩

theorem inStep_intern (name : String) : InStep n k? 0 id (intern name) (intern name) := by
  intro rs s s' _ _ halike
  have hintern : s.names.intern name = s'.names.intern name := by rw [halike.names]
  exact .ok (congrArg Prod.fst hintern) (Nat.le_refl _)
    (halike.with halike.arena (congrArg Prod.snd hintern) halike.depth)

theorem inStep_identifier : InStep n k? 1 Prod.fst identifier identifier := by
  refine .peekToken fun t t' hkind => ?_
  rw [← hkind]
  generalize t.kind = kind
  cases kind with
  | identifier name =>
    refine (inStep_skip (k := .identifier name) nofun).bind fun _ _ _ => ?_
    exact (inStep_intern name).bind fun _ _ h => .pure h
  | _ => exact inStep_refuse _

theorem InStep.identifier {f f' : Symbol × Location → ParseM β}
    (hf : ∀ name place place', InStep n none 0 w (f (name, place)) (f' (name, place'))) :
    InStep n k? 0 w (identifier >>= f) (Parser.identifier >>= f') := by
  refine (inStep_identifier.weaken (Nat.zero_le 1)).bind fun x x' h => ?_
  obtain ⟨name, place⟩ := x
  obtain ⟨name', place'⟩ := x'
  obtain rfl : name = name' := h
  exact hf name place place'

theorem inStep_addExpr (e : Expr) (place place' : Location) :
    InStep n k? 0 id (addExpr e place) (addExpr e place') := by
  intro rs s s' _ _ halike
  have hadd := s.arena.addExpr_unplaced e (some place)
  rw [halike.arena, s'.arena.addExpr_unplaced e (some place')] at hadd
  obtain ⟨href, harena⟩ := Prod.mk.inj hadd
  exact .ok href.symm (Nat.le_refl _) (halike.with harena.symm halike.names halike.depth)

theorem inStep_addDecl {x x' : Decl} (h : x.unplaced = x'.unplaced) :
    InStep n k? 0 id (addDecl x) (addDecl x') := by
  intro rs s s' _ _ halike
  have hadd := s.arena.addDecl_unplaced x
  rw [halike.arena, h, s'.arena.addDecl_unplaced x'] at hadd
  obtain ⟨href, harena⟩ := Prod.mk.inj hadd
  exact .ok href.symm (Nat.le_refl _) (halike.with harena.symm halike.names halike.depth)

/-! ## Nesting -/

theorem inStep_tooDeep : InStep n k? c v tooDeep tooDeep := inStep_location.before fun _ _ _ => .throw rfl

theorem inStep_enter : InStep n k? 0 id enter enter := by
  intro rs s s' hn hk halike
  have htoo : InStep n k? 0 id (tooDeep : ParseM Unit) tooDeep := inStep_tooDeep
  unfold enter
  rw [halike.depth]
  split
  · exact .ok rfl (Nat.le_refl _) (halike.with halike.arena halike.names rfl)
  · exact htoo hn hk halike

theorem inStep_nested (h : InStep n none 0 v p p') : InStep n k? 0 v (nested p) (nested p') := by
  refine inStep_enter.bind fun _ _ _ rs s s' hn hk halike => ?_
  have hagree := h hn hk halike
  generalize p s = answer, p' s' = answer' at hagree ⊢
  cases hagree with
  | ok hv hlen hrs => exact .ok hv hlen (hrs.with hrs.arena hrs.names (congrArg (· - 1) hrs.depth))
  | error he hnames => exact .error he hnames

end Parser

/-! ## The grammar -/

namespace Grammar

open Fool.Parser

variable {α γ : Type} {n bound bound' : Nat} {k? : Option TokenKind} {v : α → γ} {p p' : ParseM α}

/-! ### Lists -/

/-- While answers are left, neither bound is reached. -/
theorem inStep_items (h : InStep n none 0 v p p') (hb : n ≤ bound) (hb' : n ≤ bound') :
    InStep n k? 0 (List.map v) (items p bound) (items p' bound') := by
  induction bound generalizing n bound' k? with
  | zero => exact Nat.le_zero.1 hb ▸ .zero
  | succ bound ih =>
    obtain _ | bound' := bound'
    · exact Nat.le_zero.1 hb' ▸ .zero
    · refine h.any.bind fun a a' ha => .peek fun kind => .ite (fun hcomma => ?_) fun _ => ?_
      · subst hcomma
        refine .skip_lt nofun ?_
        refine (ih (h.mono (Nat.sub_le n 1)) (by omega) (by omega)).bind fun as as' has => ?_
        exact .pure (congrArg₂ List.cons ha has)
      · exact .pure (congrArg (fun b => [b]) ha)

theorem inStep_commaSeparated (h : InStep n none 0 v p p') (hb : n ≤ bound) (hb' : n ≤ bound') :
    InStep n k? 0 (List.map v) (commaSeparated bound p) (commaSeparated bound' p') :=
  .peek fun _ => .ite (fun _ => .pure rfl) fun _ => inStep_items h hb hb'

/-! ### Types -/

theorem inStep_simpleType : InStep n k? 0 id simpleType simpleType := by
  refine .peek fun kind => ?_
  split
  · exact .skip nofun (.pure rfl)
  · exact .skip nofun (.pure rfl)
  · exact .identifier fun name _ _ => .pure rfl
  · exact inStep_refuse _

theorem inStep_anyType (hb : n ≤ bound) (hb' : n ≤ bound') :
    ∀ {k? : Option TokenKind} (d : Nat), InStep n k? 0 id (anyType bound d) (anyType bound' d)
  | _, 0 => inStep_tooDeep
  | _, d + 1 => by
    refine .peek fun kind => .ite (fun hopen => ?_) fun _ => inStep_simpleType
    subst hopen
    refine .skip nofun ?_
    refine (inStep_commaSeparated (inStep_nested (inStep_anyType hb hb' d)) hb hb').bind fun params params' hparams => ?_
    obtain rfl : params = params' := by simpa using hparams
    exact .mark (.mark (inStep_simpleType.bind_id fun _ => .pure rfl))

theorem inStep_typedName {type type' : ParseM Ty} (h : InStep n none 0 id type type') :
    InStep n k? 0 TypedName.unplaced (typedName type) (typedName type') :=
  .identifier fun _ _ _ => .mark (h.bind_id fun _ => .pure rfl)

/-! ### Expressions -/

/-- While answers are left, neither bound is reached. -/
theorem inStep_chainFrom (op? : TokenKind → Option Operator) {operand operand' : ParseM ExprRef}
    (h : InStep n none 0 id operand operand') (hop : op? .endOfInput = none) (left : ExprRef) (hb : n ≤ bound)
    (hb' : n ≤ bound') :
    InStep n k? 0 id (chainFrom op? operand bound left) (chainFrom op? operand' bound' left) := by
  induction bound generalizing n bound' k? left with
  | zero => exact Nat.le_zero.1 hb ▸ .zero
  | succ bound ih =>
    obtain _ | bound' := bound'
    · exact Nat.le_zero.1 hb' ▸ .zero
    · refine .peekToken fun t t' hkind => ?_
      rw [← hkind]
      split
      · exact .pure rfl
      · rename_i op hsome
        refine .skip_lt (fun hend => by rw [hend, hop] at hsome; cases hsome) ?_
        refine (h.mono (Nat.sub_le n 1)).bind_id fun right => ?_
        refine (inStep_addExpr (.binary op left right) t.location t'.location).bind_id fun whole => ?_
        exact ih (h.mono (Nat.sub_le n 1)) whole (by omega) (by omega)

theorem inStep_chain (hb : n ≤ bound) (hb' : n ≤ bound') (op? : TokenKind → Option Operator)
    (hop : op? .endOfInput = none) {operand operand' : ParseM ExprRef} (h : InStep n none 0 id operand operand') :
    InStep n k? 0 id (chain bound op? operand) (chain bound' op? operand') :=
  h.any.bind_id fun first => inStep_chainFrom op? h hop first hb hb'

theorem inStep_logical (hb : n ≤ bound) (hb' : n ≤ bound') {unary unary' : ParseM ExprRef}
    (h : InStep n none 0 id unary unary') : InStep n k? 0 id (logical bound unary) (logical bound' unary') :=
  inStep_chain hb hb' _ rfl (inStep_chain hb hb' _ rfl (inStep_chain hb hb' _ rfl (inStep_chain hb hb' _ rfl h)))

section

variable {expr expr' : ParseM ExprRef} (h : InStep n none 0 id expr expr')
include h

theorem inStep_arguments (hb : n ≤ bound) (hb' : n ≤ bound') :
    InStep n k? 0 id (arguments bound expr) (arguments bound' expr') := by
  refine .mark ((inStep_commaSeparated h hb hb').bind fun args args' hargs => ?_)
  obtain rfl : args = args' := by simpa using hargs
  exact .mark (.pure rfl)

theorem inStep_braced : InStep n k? 0 id (braced expr) (braced expr') :=
  .mark (h.bind_id fun _ => .mark (.pure rfl))

theorem inStep_parenthesized : InStep n k? 0 id (parenthesized expr) (parenthesized expr') :=
  .mark (h.bind_id fun _ => .mark (.pure rfl))

theorem inStep_named (hb : n ≤ bound) (hb' : n ≤ bound') :
    InStep n k? 0 id (named bound expr) (named bound' expr') := by
  refine .identifier fun name place place' => .peek fun kind => ?_
  split
  · exact (inStep_arguments h hb hb').bind_id fun args => inStep_addExpr (.call name args) place place'
  · refine .skip nofun (.identifier fun method _ _ => ?_)
    exact (inStep_arguments h hb hb').bind_id fun args => inStep_addExpr (.methodCall name method args) place place'
  · exact inStep_addExpr (.name name) place place'

theorem inStep_primary (hb : n ≤ bound) (hb' : n ≤ bound') :
    InStep n k? 0 id (primary bound expr) (primary bound' expr') := by
  refine .peekToken fun t t' hkind => ?_
  rw [← hkind]
  generalize t.kind = kind
  cases kind with
  | number value => exact .skip nofun (inStep_addExpr (.int value) _ _)
  | identifier name => exact inStep_named h hb hb'
  | endOfInput => exact .throw rfl
  | mark m =>
    cases m with
    | minus =>
      refine .skip nofun (.peek fun kind => ?_)
      split
      · rename_i value
        exact .skip nofun (inStep_addExpr (.int (-value)) _ _)
      · exact inStep_refuse _
    | parenOpen => exact inStep_parenthesized h
    | _ => exact .throw rfl
  | keyword x =>
    cases x with
    | trueKw => exact .skip nofun (inStep_addExpr (.bool true) _ _)
    | falseKw => exact .skip nofun (inStep_addExpr (.bool false) _ _)
    | nullKw => exact .skip nofun (inStep_addExpr .null _ _)
    | ifKw =>
      refine .skip nofun (h.bind_id fun condition => .keyword ((inStep_braced h).bind_id fun onTrue => ?_))
      refine .keyword ((inStep_braced h).bind_id fun onFalse => ?_)
      exact inStep_addExpr (.ifElse condition onTrue onFalse) _ _
    | printKw =>
      exact .skip nofun ((inStep_parenthesized h).bind_id fun operand => inStep_addExpr (.print operand) _ _)
    | newKw =>
      refine .skip nofun (.identifier fun name place place' => ?_)
      exact (inStep_arguments h hb hb').bind_id fun args => inStep_addExpr (.new name args) place place'
    | _ => exact .throw rfl

end

theorem inStep_unary (hb : n ≤ bound) (hb' : n ≤ bound') :
    ∀ {k? : Option TokenKind} (d : Nat), InStep n k? 0 id (unary bound d) (unary bound' d)
  | _, 0 => inStep_tooDeep
  | _, d + 1 => by
    have ih : InStep n none 0 id (unary bound d) (unary bound' d) := inStep_unary hb hb' d
    refine .peekToken fun t t' hkind => ?_
    rw [← hkind]
    refine .ite (fun hnot => ?_) fun _ => inStep_primary (inStep_nested (inStep_logical hb hb' ih)) hb hb'
    rw [hnot]
    exact .skip nofun ((inStep_nested ih).bind_id fun operand => inStep_addExpr (.not operand) _ _)

theorem inStep_expression (hb : n ≤ bound) (hb' : n ≤ bound') :
    InStep n k? 0 id (expression bound) (expression bound') :=
  inStep_nested (inStep_logical hb hb' (inStep_unary hb hb' maxDepth))

/-! ### Declarations -/

/-- Behind the question whether a declaration begins here, one begins if the answer is yes. -/
theorem InStep.atDeclaration {β δ : Type} {w : β → δ} {f f' : Bool → ParseM β}
    (hf : ∀ b, InStep n none 0 w (f b) (f' b)) : InStep n k? 0 w (atDeclaration >>= f) (Grammar.atDeclaration >>= f') := by
  have hat : InStep n k? 0 id Grammar.atDeclaration Grammar.atDeclaration := by
    refine .peek fun kind => ?_
    split <;> exact .pure rfl
  exact hat.bind_id hf

/-- While answers are left, neither bound is reached, as each declaration takes a token. -/
theorem inStep_declarationsFrom {decl decl' : ParseM DeclRef} (h : InStep n none 1 id decl decl') (hb : n ≤ bound)
    (hb' : n ≤ bound') : InStep n k? 0 id (declarationsFrom decl bound) (declarationsFrom decl' bound') := by
  induction bound generalizing n bound' k? with
  | zero => exact Nat.le_zero.1 hb ▸ .zero
  | succ bound ih =>
    obtain _ | bound' := bound'
    · exact Nat.le_zero.1 hb' ▸ .zero
    · refine InStep.atDeclaration fun b => .ite (fun _ => ?_) fun _ => .pure rfl
      refine h.bind_lt fun d d' hd => ?_
      obtain rfl : d = d' := hd
      exact (ih (h.mono (Nat.sub_le n 1)) (by omega) (by omega)).bind_id fun _ => .pure rfl

theorem inStep_declarations {decl decl' : ParseM DeclRef} (h : InStep n none 1 id decl decl') (hb : n ≤ bound)
    (hb' : n ≤ bound') : InStep n k? 0 id (declarations bound decl) (declarations bound' decl') :=
  InStep.atDeclaration fun _ => .ite (fun _ => inStep_declarationsFrom h hb hb') fun _ => inStep_refuse _

theorem inStep_letBlock {decl decl' : ParseM DeclRef} (h : InStep n none 1 id decl decl') (hb : n ≤ bound)
    (hb' : n ≤ bound') : InStep n k? 0 id (letBlock bound decl) (letBlock bound' decl') := by
  refine .peek fun kind => .ite (fun hlet => ?_) fun _ => .pure rfl
  subst hlet
  exact .skip nofun ((inStep_declarations h hb hb').bind_id fun _ => .keyword (.pure rfl))

theorem inStep_variableDecl (hb : n ≤ bound) (hb' : n ≤ bound') :
    InStep n k? 1 Variable.unplaced (variableDecl bound) (variableDecl bound') := by
  refine inStep_location.before fun place place' _ => (inStep_keyword _).bind_id fun _ => .identifier fun name _ _ => ?_
  refine .mark ((inStep_anyType hb hb' _).bind_id fun ty => .mark ?_)
  exact (inStep_expression hb hb').bind_id fun init => .mark (.pure rfl)

theorem inStep_function {decl decl' : ParseM DeclRef} (h : InStep n none 1 id decl decl') (hb : n ≤ bound)
    (hb' : n ≤ bound') : InStep n k? 1 Function.unplaced (function bound decl) (function bound' decl') := by
  refine inStep_location.before fun place place' _ => (inStep_keyword _).bind_id fun _ => .identifier fun name _ _ => ?_
  refine .mark (inStep_simpleType.bind_id fun ret => .mark ?_)
  have htyped : InStep n none 0 _ (typedName (anyType bound (maxDepth + 1))) _ :=
    inStep_typedName (inStep_anyType hb hb' (maxDepth + 1))
  refine (inStep_commaSeparated htyped hb hb').bind fun params params' hparams => .mark ?_
  refine (inStep_nested (inStep_letBlock h hb hb')).bind_id fun locals => ?_
  refine (inStep_expression hb hb').bind_id fun body => .mark (.pure ?_)
  exact congrArg (Function.mk name ret · locals body none) hparams

/-- While answers are left, neither bound is reached, as each method takes a token. -/
theorem inStep_methods {method method' : ParseM Function} (h : InStep n none 1 Function.unplaced method method')
    (hb : n ≤ bound) (hb' : n ≤ bound') :
    InStep n k? 0 (List.map Function.unplaced) (methods method bound) (methods method' bound') := by
  induction bound generalizing n bound' k? with
  | zero => exact Nat.le_zero.1 hb ▸ .zero
  | succ bound ih =>
    obtain _ | bound' := bound'
    · exact Nat.le_zero.1 hb' ▸ .zero
    · refine .peek fun kind => .ite (fun _ => ?_) fun _ => .pure rfl
      refine h.any.bind_lt fun f f' hf => ?_
      refine (ih (h.mono (Nat.sub_le n 1)) (by omega) (by omega)).bind fun fs fs' hfs => ?_
      exact .pure (congrArg₂ List.cons hf hfs)

theorem inStep_classDecl {decl decl' : ParseM DeclRef} (h : InStep n none 1 id decl decl') (hb : n ≤ bound)
    (hb' : n ≤ bound') : InStep n k? 1 Class.unplaced (classDecl bound decl) (classDecl bound' decl') := by
  refine inStep_location.before fun place place' _ => (inStep_keyword _).bind_id fun _ => .identifier fun name _ _ => ?_
  refine .mark ((inStep_commaSeparated (inStep_typedName inStep_simpleType) hb hb').bind fun fields fields' hfields => ?_)
  refine .mark (.mark ((inStep_methods (inStep_function h hb hb') hb hb').bind fun ms ms' hms => .mark (.pure ?_)))
  exact congrArg₂ (Class.mk name · · none) hfields hms

theorem inStep_declaration (hb : n ≤ bound) (hb' : n ≤ bound') :
    ∀ {k? : Option TokenKind} (d : Nat), InStep n k? 1 id (declaration bound d) (declaration bound' d)
  | _, 0 => inStep_tooDeep
  | _, d + 1 => by
    have ih : InStep n none 1 id (declaration bound d) (declaration bound' d) := inStep_declaration hb hb' d
    refine .peek fun kind => ?_
    split
    · refine (inStep_variableDecl hb hb').bind fun x x' h => ?_
      exact inStep_addDecl (congrArg Decl.varDecl h)
    · exact (inStep_function ih hb hb').bind fun x x' h => inStep_addDecl (congrArg Decl.funDecl h)
    · exact (inStep_classDecl ih hb hb').bind fun x x' h => inStep_addDecl (congrArg Decl.classDecl h)
    · exact inStep_refuse _

end Grammar

/-! ## Programs -/

namespace Parser

open Lexer

variable {α β γ δ : Type} {n : Nat} {v : α → γ} {w : β → δ} {rs : Readings} {s s' : Parser}

/-- The outcomes agree, whatever is left of the tokens. -/
inductive Concur (v : α → γ) : EStateM.Result ParseError Parser α → EStateM.Result ParseError Parser α → Prop
  | ok {a a' : α} {s s' : Parser} : v a = v a' → s.names = s'.names → Concur v (.ok a s) (.ok a' s')
  | error {e e' : ParseError} {s s' : Parser} : e.cause = e'.cause → s.names = s'.names →
      Concur v (.error e s) (.error e' s')

theorem InStep.concur {c : Nat} {p p' : ParseM α} {f f' : α → ParseM β} (hp : InStep n none c v p p')
    (hn : rs.length ≤ n) (halike : Alike rs s s')
    (hf : ∀ a a' rs s s', v a = v a' → rs.length ≤ n → Alike rs s s' → Concur w (f a s) (f' a' s')) :
    Concur w ((p >>= f) s) ((p' >>= f') s') := by
  have hagree := hp hn head_none halike
  show Concur w (EStateM.bind p f s) (EStateM.bind p' f' s')
  unfold EStateM.bind
  generalize p s = answer, p' s' = answer' at hagree ⊢
  cases hagree with
  | ok hv hlen hrs => exact hf _ _ _ _ _ hv (hlen.trans ((Nat.sub_le _ _).trans hn)) hrs
  | error he hnames => exact .error he hnames

/-- The end of the input is taken by both parsers or by none. -/
theorem Alike.expect_end (h : Alike rs s s') :
    (∃ t t' tokens tokens', expect .endOfInput s = .ok t { s with tokens } ∧
      expect .endOfInput s' = .ok t' { s' with tokens := tokens' }) ∨
    ∃ e e' u u', e.cause = e'.cause ∧ u.names = u'.names ∧ expect .endOfInput s = .error e u ∧
      expect .endOfInput s' = .error e' u' := by
  obtain ⟨t, t', tokens, tokens', hkind, hhead, hrun, hrun', halike⟩ | ⟨e, e', tokens, tokens', he, hrun, hrun'⟩ :=
    h.peekToken
  · simp only [expect, peek, bind, EStateM.bind, hrun, hrun', pure, EStateM.pure, ← hkind]
    by_cases hend : t.kind = .endOfInput
    · obtain ⟨rs, rfl⟩ := List.head?_eq_some_iff.1 hhead
      obtain ⟨u, u', rest, rest', -, -, hadvance, hadvance', -⟩ := halike.advance
      rw [if_pos hend]
      exact .inl ⟨u, u', rest, rest', hadvance, hadvance'⟩
    · have hrefuse : InStep rs.length none 0 id (refuse TokenKind.endOfInput.name : ParseM Token) _ := inStep_refuse _
      have hagree := hrefuse (Nat.le_refl _) head_none halike
      rw [if_neg hend]
      generalize hanswer : refuse TokenKind.endOfInput.name { s with tokens } = answer,
        refuse TokenKind.endOfInput.name { s' with tokens := tokens' } = answer' at hagree ⊢
      cases hagree with
      | ok _ _ _ => exact absurd hanswer refuse_ne_ok
      | error he hnames => exact .inr ⟨_, _, _, _, he, hnames, rfl, rfl⟩
  · refine .inr ⟨e, e', { s with tokens }, { s' with tokens := tokens' }, he, h.names, ?_, ?_⟩
    · simp only [expect, peek, bind, EStateM.bind, hrun]
    · simp only [expect, peek, bind, EStateM.bind, hrun']

/-- What has been read in front of the end is the program, in both parsers or in none. -/
theorem concur_end (h : Alike rs s s') (declarations : List DeclRef) (body : ExprRef) :
    Concur Program.unplaced
      ((do let _ ← expect .endOfInput; return (⟨(← get).arena, declarations, body⟩ : Program) : ParseM Program) s)
      ((do let _ ← expect .endOfInput; return (⟨(← get).arena, declarations, body⟩ : Program) : ParseM Program) s') := by
  show Concur _ (EStateM.bind _ _ s) (EStateM.bind _ _ s')
  unfold EStateM.bind
  obtain ⟨t, t', tokens, tokens', hrun, hrun'⟩ | ⟨e, e', u, u', he, hnames, hrun, hrun'⟩ := h.expect_end
  · rw [hrun, hrun']
    exact .ok (congrArg (Program.mk · declarations body) h.arena) h.names
  · rw [hrun, hrun']
    exact .error he hnames

/-- The bound on lists and chains, and the parts of a program. -/
theorem program_run (s : Parser) : program s =
    (do
      let n := s.tokens.buffer.length + s.tokens.source.rest.length + 1
      let declarations ← Grammar.letBlock n (Grammar.declaration n (maxDepth + 1))
      let body ← Grammar.expression n
      mark .semicolon
      let _ ← expect .endOfInput
      return (⟨(← get).arena, declarations, body⟩ : Program) : ParseM Program) s := rfl

theorem alike_ofText {text text' : String} (names : Names)
    (h : (Cursor.ofString text).readAll.map reading = (Cursor.ofString text').readAll.map reading) :
    Alike ((Cursor.ofString text).readAll.map reading) (ofText text names) (ofText text' names) :=
  ⟨⟨_, .unread rfl, rfl⟩, ⟨_, .unread rfl, h.symm⟩, rfl, rfl, rfl⟩

theorem concur_program {text text' : String} (names : Names)
    (h : (Cursor.ofString text).readAll.map reading = (Cursor.ofString text').readAll.map reading) :
    Concur Program.unplaced (program (ofText text names)) (program (ofText text' names)) := by
  have hlen := (Cursor.ofString text).length_readAll_le
  have hlen' := (Cursor.ofString text').length_readAll_le
  rw [← List.length_map reading] at hlen hlen'
  rw [← h] at hlen'
  have halike := alike_ofText names h
  generalize (Cursor.ofString text).readAll.map reading = rs at hlen hlen' halike
  rw [program_run, program_run]
  have hb : rs.length ≤ (ofText text names).tokens.buffer.length + (ofText text names).tokens.source.rest.length + 1 :=
    hlen.trans (by simp [ofText, Lookahead.ofSource])
  have hb' : rs.length ≤ (ofText text' names).tokens.buffer.length + (ofText text' names).tokens.source.rest.length + 1 :=
    hlen'.trans (by simp [ofText, Lookahead.ofSource])
  refine (Grammar.inStep_letBlock (Grammar.inStep_declaration hb hb' _) hb hb').concur (Nat.le_refl _) halike ?_
  rintro declarations _ rs₁ s₁ s₁' rfl hrs₁ halike₁
  refine (Grammar.inStep_expression hb hb').concur hrs₁ halike₁ ?_
  rintro body _ rs₂ s₂ s₂' rfl hrs₂ halike₂
  refine (inStep_mark _).concur hrs₂ halike₂ ?_
  rintro _ _ rs₃ s₃ s₃' - - halike₃
  exact concur_end halike₃ declarations body

end Parser

/-- **Texts whose answers say the same have the same tree up to places, or are refused for the same cause.** The names met
are the same. -/
theorem Program.parse_readings {text text' : String} (names : Names)
    (h : (Cursor.ofString text).readAll.map Lexer.reading = (Cursor.ofString text').readAll.map Lexer.reading) :
    ((parse text names).1.map unplaced).mapError ParseError.cause =
        ((parse text' names).1.map unplaced).mapError ParseError.cause ∧
      (parse text names).2 = (parse text' names).2 := by
  have hconcur := Parser.concur_program names h
  unfold parse
  generalize Parser.program (.ofText text names) = answer, Parser.program (.ofText text' names) = answer' at hconcur ⊢
  cases hconcur with
  | ok hp hnames => exact ⟨congrArg Except.ok hp, hnames⟩
  | error he hnames => exact ⟨congrArg Except.error he, hnames⟩

end Fool
