import Fool.Proofs.Parse.Quiet
import Fool.Proofs.Tree.Postorder

/-!
# The tokens ahead of the parser

`Ahead s rs` says that the parser has the answers `rs` of the lexer in front of it, up to the first end of the input.
Looking at the current token keeps them, taking it takes the first (`peekToken_run`, `advance_run`). From there two
ways lead through a step: `Took` says which tokens a step that has succeeded has taken, `Ends` says that a step has to
succeed on the tokens in front of it, unless constructs are nested too deep.
-/

namespace Fool

/-! ## Answers of the lexer -/

namespace Lexer

theorem wordKind_ne_end (word : String) : wordKind word ≠ .endOfInput := by
  unfold wordKind
  split <;> simp

theorem numberKind_ne_end {digits : List Char} {kind : TokenKind} (h : numberKind digits = .ok kind) :
    kind ≠ .endOfInput := by
  unfold numberKind at h
  dsimp only at h
  split at h <;> cases h
  simp

/-- No lexeme is the end of the input. -/
theorem reading_ne_end {c : Char} {cs : List Char} {kind : TokenKind} (h : (lexeme c cs).reading = .ok kind) :
    kind ≠ .endOfInput := by
  unfold lexeme at h
  split at h
  · cases h
    exact wordKind_ne_end _
  · split at h
    · exact numberKind_ne_end h
    · split at h
      · cases h
      · split at h <;> cases h
        simp

end Lexer

namespace Cursor

/-- The end of the input is the answer just where nothing but blanks and comments is left. -/
theorem next_kind {cur : Cursor} {t : Token} (h : cur.next.1 = .ok t) :
    t.kind = .endOfInput ↔ cur.skipBlank.rest = [] := by
  unfold next at h
  dsimp only at h
  split at h
  · rename_i hrest
    cases h
    exact ⟨fun _ => hrest, fun _ => rfl⟩
  · rename_i c cs hrest
    rw [hrest]
    refine ⟨fun hend => ?_, fun hnil => nomatch hnil⟩
    unfold ofLexeme at h
    dsimp only at h
    split at h
    · rename_i kind hreading
      cases h
      exact absurd hend (Lexer.reading_ne_end hreading)
    · cases h

theorem readAll_of_end {cur : Cursor} (h : cur.skipBlank.rest = []) : cur.readAll = [cur.next.1] := by
  rw [readAll, dif_pos h]

theorem readAll_of_not_end {cur : Cursor} (h : cur.skipBlank.rest ≠ []) :
    cur.readAll = cur.next.1 :: cur.next.2.readAll := by
  rw [readAll, dif_neg h]

theorem readAll_ne_nil (cur : Cursor) : cur.readAll ≠ [] := by
  rw [readAll]
  split <;> simp

/-- There are no more answers than characters, and the end. -/
theorem length_readAll_le (cur : Cursor) : cur.readAll.length ≤ cur.rest.length + 1 := by
  induction hlen : cur.rest.length using Nat.strongRecOn generalizing cur with
  | _ k ih =>
    by_cases h : cur.skipBlank.rest = []
    · rw [readAll_of_end h]
      exact Nat.le_add_left 1 k
    · have hlt := cur.next_length_lt h
      have hrest := ih _ (hlen ▸ hlt) _ rfl
      rw [readAll_of_not_end h, List.length_cons]
      omega

end Cursor

/-! ## The parser before its tokens -/

namespace Parser

variable {α β : Type} {s s' s'' : Parser} {r : Except ParseError Token} {rs rs' rs'' : List (Except ParseError Token)}
  {t : Token} {ts us : List Token}

/-- The answers that the parser has in front of it, up to the first end of the input. -/
inductive Ahead (s : Parser) : List (Except ParseError Token) → Prop
  | unread : s.tokens.buffer = [] → Ahead s s.tokens.source.readAll
  | read {t : Token} : s.tokens.buffer = [t] → t.kind ≠ .endOfInput → Ahead s (.ok t :: s.tokens.source.readAll)
  | ended {t : Token} : s.tokens.buffer = [t] → t.kind = .endOfInput → Ahead s [.ok t]

theorem Ahead.ne_nil (h : Ahead s rs) : rs ≠ [] := by
  cases h with
  | unread _ => exact Cursor.readAll_ne_nil _
  | read _ _ | ended _ _ => exact List.cons_ne_nil _ _

/-- The answers in front depend on the tokens alone. -/
theorem Ahead.congr (h : Ahead s rs) (htokens : s'.tokens = s.tokens) : Ahead s' rs := by
  cases h with
  | unread hb => exact htokens ▸ .unread (htokens ▸ hb)
  | read hb hk => exact htokens ▸ .read (htokens ▸ hb) hk
  | ended hb hk => exact .ended (htokens ▸ hb) hk

/-- Nothing is behind the end of the input. -/
theorem Ahead.eq_nil_of_end (h : Ahead s (.ok t :: rs)) (hend : t.kind = .endOfInput) : rs = [] := by
  generalize hrs : Except.ok t :: rs = all at h
  cases h with
  | unread _ =>
    have hfirst : s.tokens.source.next.1 = .ok t := by
      rw [Cursor.readAll] at hrs
      split at hrs <;> exact (List.cons_eq_cons.1 hrs).1.symm
    rw [Cursor.readAll_of_end ((Cursor.next_kind hfirst).1 hend)] at hrs
    exact (List.cons_eq_cons.1 hrs).2
  | read _ hk =>
    cases (List.cons_eq_cons.1 hrs).1
    exact absurd hend hk
  | ended _ _ => exact (List.cons_eq_cons.1 hrs).2

/-- Looking at the current token gives the first answer, which stays. -/
theorem peekToken_run (h : Ahead s (r :: rs)) : ∃ tokens, match r with
    | .ok t => peekToken s = .ok t { s with tokens } ∧ Ahead { s with tokens } (.ok t :: rs)
    | .error e => peekToken s = .error e { s with tokens } := by
  obtain ⟨⟨cur, buffer⟩, arena, names, depth⟩ := s
  generalize hrs : r :: rs = all at h
  cases h with
  | unread hb =>
    obtain rfl : buffer = [] := hb
    have hfirst : r = cur.next.1 := by
      rw [Cursor.readAll] at hrs
      split at hrs <;> exact (List.cons_eq_cons.1 hrs).1
    cases r with
    | error e =>
      have hnext : cur.next = (.error e, cur.next.2) := Prod.ext hfirst.symm rfl
      refine ⟨⟨cur.next.2, []⟩, ?_⟩
      simp only [peekToken, onTokens, Lookahead.peekAt, List.getElem?_nil, List.length_nil, Nat.sub_zero,
        Lookahead.readOn, Lookahead.readOne]
      rw [hnext]
    | ok t =>
      have hnext : cur.next = (.ok t, cur.next.2) := Prod.ext hfirst.symm rfl
      refine ⟨⟨cur.next.2, [t]⟩, ?_, ?_⟩
      · simp only [peekToken, onTokens, Lookahead.peekAt, List.getElem?_nil, List.length_nil, Nat.sub_zero,
          Lookahead.readOn, Lookahead.readOne, List.nil_append]
        rw [hnext]
      · by_cases hend : t.kind = .endOfInput
        · have hnil := (Cursor.next_kind hfirst.symm).1 hend
          rw [Cursor.readAll_of_end hnil] at hrs
          obtain ⟨-, rfl⟩ := List.cons_eq_cons.1 hrs
          exact .ended rfl hend
        · have hrest : cur.skipBlank.rest ≠ [] := fun hnil => hend ((Cursor.next_kind hfirst.symm).2 hnil)
          rw [Cursor.readAll_of_not_end hrest] at hrs
          obtain ⟨-, rfl⟩ := List.cons_eq_cons.1 hrs
          exact .read rfl hend
  | read hb hk =>
    obtain rfl : buffer = _ := hb
    obtain ⟨rfl, rfl⟩ := List.cons_eq_cons.1 hrs
    exact ⟨_, rfl, .read rfl hk⟩
  | ended hb hk =>
    obtain rfl : buffer = _ := hb
    obtain ⟨rfl, rfl⟩ := List.cons_eq_cons.1 hrs
    exact ⟨_, rfl, .ended rfl hk⟩

/-- Taking the current token leaves the others, if it is not the end of the input. -/
theorem advance_run (h : Ahead s (.ok t :: rs)) : ∃ tokens, advance s = .ok t { s with tokens } ∧
    (t.kind ≠ .endOfInput → Ahead { s with tokens } rs) := by
  obtain ⟨⟨cur, buffer⟩, arena, names, depth⟩ := s
  generalize hrs : Except.ok t :: rs = all at h
  cases h with
  | unread hb =>
    obtain rfl : buffer = [] := hb
    have hfirst : Except.ok t = cur.next.1 := by
      rw [Cursor.readAll] at hrs
      split at hrs <;> exact (List.cons_eq_cons.1 hrs).1
    have hnext : cur.next = (.ok t, cur.next.2) := Prod.ext hfirst.symm rfl
    refine ⟨⟨cur.next.2, []⟩, ?_, fun hend => ?_⟩
    · simp only [advance, onTokens, Lookahead.advance]
      rw [hnext]
    · have hrest : cur.skipBlank.rest ≠ [] := fun hnil => hend ((Cursor.next_kind hfirst.symm).2 hnil)
      rw [Cursor.readAll_of_not_end hrest] at hrs
      obtain ⟨-, rfl⟩ := List.cons_eq_cons.1 hrs
      exact .unread rfl
  | read hb hk =>
    obtain rfl : buffer = _ := hb
    obtain ⟨hfirst, rfl⟩ := List.cons_eq_cons.1 hrs
    cases hfirst
    exact ⟨⟨cur, []⟩, rfl, fun _ => .unread rfl⟩
  | ended hb hk =>
    obtain rfl : buffer = _ := hb
    obtain ⟨hfirst, rfl⟩ := List.cons_eq_cons.1 hrs
    cases hfirst
    exact ⟨⟨cur, []⟩, rfl, fun hend => absurd hk hend⟩

/-! ## Steps that succeed -/

/-- From `s` to `s'` the parser has taken the tokens `ts`, which leaves `rs'` of the answers `rs` in front of it. -/
structure Took (s : Parser) (rs : List (Except ParseError Token)) (ts : List Token) (s' : Parser)
    (rs' : List (Except ParseError Token)) : Prop where
  answers : rs = ts.map .ok ++ rs'
  ahead : Ahead s' rs'
  depth : s'.depth = s.depth

theorem Took.trans (h : Took s rs ts s' rs') (h' : Took s' rs' us s'' rs'') : Took s rs (ts ++ us) s'' rs'' where
  answers := by rw [h.answers, h'.answers, List.map_append, List.append_assoc]
  ahead := h'.ahead
  depth := h'.depth.trans h.depth

theorem Took.length_eq (h : Took s rs ts s' rs') : rs.length = ts.length + rs'.length := by
  rw [h.answers, List.length_append, List.length_map]

theorem Took.length_le (h : Took s rs ts s' rs') : rs'.length ≤ rs.length := by
  rw [h.length_eq]
  exact Nat.le_add_left _ _

theorem Took.refl (h : Ahead s rs) : Took s rs [] s rs := ⟨rfl, h, rfl⟩

theorem Took.peekToken (h : Took s rs ts s' rs') (hp : peekToken s' = .ok t s'') :
    Took s rs ts s'' rs' ∧ ∃ rs'', rs' = .ok t :: rs'' := by
  obtain _ | ⟨r, rs'⟩ := rs'
  · exact absurd rfl h.ahead.ne_nil
  · obtain ⟨tokens, hrun⟩ := peekToken_run h.ahead
    cases r with
    | error e => rw [hrun] at hp; cases hp
    | ok u =>
      rw [hrun.1] at hp
      cases hp
      exact ⟨⟨h.answers, hrun.2, h.depth⟩, rs', rfl⟩

theorem Took.peek {k : TokenKind} (h : Took s rs ts s' rs') (hp : peek s' = .ok k s'') :
    Took s rs ts s'' rs' ∧ ∃ t rs'', rs' = .ok t :: rs'' ∧ t.kind = k := by
  obtain ⟨t, s₁, h₁, hp⟩ := bind_ok hp
  obtain ⟨rfl, rfl⟩ := pure_ok hp
  obtain ⟨htook, rs'', hrs⟩ := h.peekToken h₁
  exact ⟨htook, t, rs'', hrs, rfl⟩

theorem Took.location {l : Location} (h : Took s rs ts s' rs') (hp : location s' = .ok l s'') :
    Took s rs ts s'' rs' ∧ ∃ t rs'', rs' = .ok t :: rs'' ∧ t.location = l := by
  obtain ⟨t, s₁, h₁, hp⟩ := bind_ok hp
  obtain ⟨rfl, rfl⟩ := pure_ok hp
  obtain ⟨htook, rs'', hrs⟩ := h.peekToken h₁
  exact ⟨htook, t, rs'', hrs, rfl⟩

theorem took_advance {u : Token} (h : Ahead s (.ok t :: rs)) (hk : t.kind ≠ .endOfInput)
    (hp : advance s = .ok u s') : u = t ∧ Took s (.ok t :: rs) [t] s' rs := by
  obtain ⟨tokens, hrun, hahead⟩ := advance_run h
  rw [hrun] at hp
  cases hp
  exact ⟨rfl, rfl, hahead hk, rfl⟩

theorem took_skip {u : Unit} (h : Ahead s (.ok t :: rs)) (hk : t.kind ≠ .endOfInput) (hp : skip s = .ok u s') :
    Took s (.ok t :: rs) [t] s' rs := by
  obtain ⟨_, s₁, h₁, hp⟩ := bind_ok hp
  obtain ⟨-, rfl⟩ := pure_ok hp
  exact (took_advance h hk h₁).2

theorem took_expect {k : TokenKind} (h : Ahead s rs) (hk : k ≠ .endOfInput) (hp : expect k s = .ok t s') :
    t.kind = k ∧ ∃ rs', Took s rs [t] s' rs' := by
  obtain ⟨k', s₁, h₁, hp⟩ := bind_ok hp
  obtain ⟨htook, u, rs', rfl, rfl⟩ := (Took.refl h).peek h₁
  split at hp
  · obtain ⟨rfl, htook'⟩ := took_advance htook.ahead (by simp_all) hp
    exact ⟨‹_›, rs', htook.trans htook'⟩
  · exact absurd hp refuse_ne_ok

/-- The end of the input stays in front of the parser. -/
theorem expect_end (h : Ahead s rs) (hp : expect .endOfInput s = .ok t s') :
    t.kind = .endOfInput ∧ rs = [.ok t] := by
  obtain ⟨k', s₁, h₁, hp⟩ := bind_ok hp
  obtain ⟨htook, u, rs', rfl, rfl⟩ := (Took.refl h).peek h₁
  split at hp
  · obtain ⟨tokens, hrun, -⟩ := advance_run htook.ahead
    rw [hrun] at hp
    cases hp
    exact ⟨‹_›, congrArg _ (htook.ahead.eq_nil_of_end ‹_›)⟩
  · exact absurd hp refuse_ne_ok

theorem took_mark {m : Mark} {u : Unit} (h : Ahead s rs) (hp : mark m s = .ok u s') :
    ∃ t rs', t.kind = .mark m ∧ Took s rs [t] s' rs' := by
  obtain ⟨t, s₁, h₁, hp⟩ := bind_ok hp
  obtain ⟨-, rfl⟩ := pure_ok hp
  obtain ⟨hk, rs', htook⟩ := took_expect h (by simp) h₁
  exact ⟨t, rs', hk, htook⟩

theorem took_keyword {k : Keyword} {u : Unit} (h : Ahead s rs) (hp : keyword k s = .ok u s') :
    ∃ t rs', t.kind = .keyword k ∧ Took s rs [t] s' rs' := by
  obtain ⟨t, s₁, h₁, hp⟩ := bind_ok hp
  obtain ⟨-, rfl⟩ := pure_ok hp
  obtain ⟨hk, rs', htook⟩ := took_expect h (by simp) h₁
  exact ⟨t, rs', hk, htook⟩

theorem took_identifier {x : Symbol × Location} (h : Ahead s rs) (hp : identifier s = .ok x s') :
    ∃ t name rs', t.kind = .identifier name ∧ Took s rs [t] s' rs' := by
  obtain ⟨t, s₁, h₁, hp⟩ := bind_ok hp
  obtain ⟨htook, rs', rfl⟩ := (Took.refl h).peekToken h₁
  generalize hk : t.kind = kind at hp
  split at hp
  · rename_i name
    obtain ⟨u, s₂, h₂, hp⟩ := bind_ok hp
    obtain ⟨sym, s₃, h₃, hp⟩ := bind_ok hp
    obtain ⟨-, rfl⟩ := pure_ok hp
    cases h₃
    have htook₂ := htook.trans (took_skip htook.ahead (by simp [hk]) h₂)
    exact ⟨t, name, rs', hk, htook₂.answers, htook₂.ahead.congr rfl, htook₂.depth⟩
  · exact absurd hp refuse_ne_ok

theorem Took.addExpr {x : Expr} {place : Location} {e : ExprRef} (h : Took s rs ts s' rs')
    (hp : addExpr x place s' = .ok e s'') : Took s rs ts s'' rs' := by
  cases hp
  exact ⟨h.answers, h.ahead.congr rfl, h.depth⟩

theorem Took.addDecl {x : Decl} {d : DeclRef} (h : Took s rs ts s' rs') (hp : addDecl x s' = .ok d s'') :
    Took s rs ts s'' rs' := by
  cases hp
  exact ⟨h.answers, h.ahead.congr rfl, h.depth⟩

/-! ## Steps that have to succeed -/

/-- The tree and the names of `s` are kept in `s'`. -/
structure Grows (s s' : Parser) : Prop where
  arena : s.arena.Extends s'.arena
  names : ∀ {name : String} {sym : Symbol}, s.names.find? name = some sym → s'.names.find? name = some sym

theorem Grows.refl (s : Parser) : Grows s s := ⟨.refl _, id⟩

theorem Grows.trans (h : Grows s s') (h' : Grows s' s'') : Grows s s'' :=
  ⟨h.arena.trans h'.arena, fun hn => h'.names (h.names hn)⟩

/-- At `s'` the answers `rs` are in front of the parser, and nothing of `s` is lost. -/
structure Leaves (s : Parser) (rs : List (Except ParseError Token)) (s' : Parser) : Prop where
  ahead : Ahead s' rs
  depth : s'.depth = s.depth
  grows : Grows s s'

theorem Leaves.trans (h : Leaves s rs s') (h' : Leaves s' rs' s'') : Leaves s rs' s'' :=
  ⟨h'.ahead, h'.depth.trans h.depth, h.grows.trans h'.grows⟩

/-- The step begun at `s` succeeds in front of the answers `rs`, with such a value; or it finds constructs nested too
deep, which needs `limit` beyond the greatest depth. -/
def Ends (s : Parser) (rs : List (Except ParseError Token)) (limit : Nat) (Q : Parser → α → Prop) :
    EStateM.Result ParseError Parser α → Prop
  | .ok a s' => Leaves s rs s' ∧ Q s' a
  | .error e _ => e.cause = .recursionLimit maxDepth ∧ maxDepth < limit

variable {limit : Nat} {Q : Parser → α → Prop} {Q' : Parser → β → Prop}

theorem Ends.pure {a : α} (h : Ahead s rs) (hQ : Q s a) : Ends s rs limit Q ((pure a : ParseM α) s) :=
  ⟨⟨h, rfl, .refl s⟩, hQ⟩

theorem Ends.mono {Q₂ : Parser → α → Prop} {result : EStateM.Result ParseError Parser α} (h : Ends s rs limit Q result)
    (hQ : ∀ a s', Leaves s rs s' → Q s' a → Q₂ s' a) : Ends s rs limit Q₂ result := by
  cases result with
  | ok a s' => exact ⟨h.1, hQ a s' h.1 h.2⟩
  | error e s' => exact h

/-- What holds of the outcome of a step, and of that of the step behind it, holds of the outcome of both. -/
theorem Ends.elim {p : ParseM α} {f : α → ParseM β} {P : EStateM.Result ParseError Parser β → Prop}
    (h : Ends s rs limit Q (p s)) (hok : ∀ a s', Leaves s rs s' → Q s' a → P (f a s'))
    (herror : ∀ e s', e.cause = .recursionLimit maxDepth → maxDepth < limit → P (.error e s')) :
    P ((p >>= f) s) := by
  show P (EStateM.bind p f s)
  unfold EStateM.bind
  cases hp : p s with
  | error e s₁ =>
    rw [hp] at h
    exact herror e s₁ h.1 h.2
  | ok a s₁ =>
    rw [hp] at h
    exact hok a s₁ h.1 h.2

theorem Ends.bind {p : ParseM α} {f : α → ParseM β} (h : Ends s rs limit Q (p s))
    (hf : ∀ a s', Leaves s rs s' → Q s' a → Ends s' rs' limit Q' (f a s')) : Ends s rs' limit Q' ((p >>= f) s) := by
  refine h.elim (fun a s₁ h₁ ha => ?_) fun e s₁ he hlimit => ⟨he, hlimit⟩
  have hend := hf a s₁ h₁ ha
  cases hfa : f a s₁ with
  | error e s₂ =>
    rw [hfa] at hend
    exact hend
  | ok b s₂ =>
    rw [hfa] at hend
    exact ⟨h₁.trans hend.1, hend.2⟩

theorem ends_peekToken (h : Ahead s (.ok t :: rs)) :
    Ends s (.ok t :: rs) limit (fun _ u => u = t) (peekToken s) := by
  obtain ⟨tokens, hrun, hahead⟩ := peekToken_run h
  rw [hrun]
  exact ⟨⟨hahead, rfl, .refl _, id⟩, rfl⟩

theorem ends_peek (h : Ahead s (.ok t :: rs)) : Ends s (.ok t :: rs) limit (fun _ k => k = t.kind) (peek s) :=
  (ends_peekToken h).bind fun _ _ h₁ ht => .pure h₁.ahead (congrArg Token.kind ht)

theorem ends_location (h : Ahead s (.ok t :: rs)) :
    Ends s (.ok t :: rs) limit (fun _ l => l = t.location) (location s) :=
  (ends_peekToken h).bind fun _ _ h₁ ht => .pure h₁.ahead (congrArg Token.location ht)

theorem ends_tooDeep (h : Ahead s (.ok t :: rs')) (hlimit : maxDepth < limit) :
    Ends s rs limit Q ((tooDeep : ParseM α) s) :=
  (ends_location h).bind fun _ _ _ _ => ⟨rfl, hlimit⟩

/-- What is nested is found too deep only at the greatest depth. -/
theorem Ends.nested {p : ParseM α} (hlimit : s.depth < limit) (hahead : Ahead s (.ok t :: rs'))
    (hkept : ∀ s₁ a, Q s₁ a → Q { s₁ with depth := s₁.depth - 1 } a)
    (h : s.depth < maxDepth →
      Ends { s with depth := s.depth + 1 } rs limit Q (p { s with depth := s.depth + 1 })) :
    Ends s rs limit Q (nested p s) := by
  show Ends s rs limit Q (EStateM.bind enter _ s)
  unfold EStateM.bind enter
  by_cases hlt : s.depth < maxDepth
  · rw [if_pos hlt]
    dsimp only
    have hend := h hlt
    cases hp : p { s with depth := s.depth + 1 } with
    | error e s₁ =>
      rw [hp] at hend
      exact hend
    | ok a s₁ =>
      rw [hp] at hend
      obtain ⟨hleaves, hQ⟩ := hend
      refine ⟨⟨hleaves.ahead.congr rfl, ?_, hleaves.grows.arena, hleaves.grows.names⟩, hkept s₁ a hQ⟩
      show s₁.depth - 1 = s.depth
      rw [hleaves.depth]
      rfl
  · rw [if_neg hlt]
    have hdeep : Ends s rs limit (fun _ _ => False) ((tooDeep : ParseM Unit) s) := ends_tooDeep hahead (by omega)
    cases htoo : (tooDeep : ParseM Unit) s with
    | ok u s₁ => exact absurd htoo tooDeep_ne_ok
    | error e s₁ =>
      rw [htoo] at hdeep
      exact hdeep

theorem ends_advance (h : Ahead s (.ok t :: rs)) (hk : t.kind ≠ .endOfInput) :
    Ends s rs limit (fun _ u => u = t) (advance s) := by
  obtain ⟨tokens, hrun, hahead⟩ := advance_run h
  rw [hrun]
  exact ⟨⟨hahead hk, rfl, .refl _, id⟩, rfl⟩

theorem ends_skip (h : Ahead s (.ok t :: rs)) (hk : t.kind ≠ .endOfInput) :
    Ends s rs limit (fun _ _ => True) (skip s) :=
  (ends_advance h hk).bind fun _ _ h₁ _ => .pure h₁.ahead trivial

theorem ends_expect (h : Ahead s (.ok t :: rs)) (hk : t.kind ≠ .endOfInput) :
    Ends s rs limit (fun _ u => u = t) (expect t.kind s) := by
  refine (ends_peek h).bind fun k s₁ h₁ hkind => ?_
  rw [if_pos hkind]
  exact ends_advance h₁.ahead hk

/-- The end of the input is taken too. -/
theorem run_expect_end (h : Ahead s [.ok t]) (hend : t.kind = .endOfInput) :
    ∃ tokens, expect .endOfInput s = .ok t { s with tokens } := by
  obtain ⟨tokens, hpeek, hahead⟩ := peekToken_run h
  obtain ⟨tokens', hadvance, -⟩ := advance_run hahead
  refine ⟨tokens', ?_⟩
  simp only [expect, peek, bind, EStateM.bind, hpeek, pure, EStateM.pure, if_pos hend, hadvance]

theorem ends_mark {m : Mark} (h : Ahead s (.ok t :: rs)) (hk : t.kind = .mark m) :
    Ends s rs limit (fun _ _ => True) (mark m s) := by
  unfold mark
  rw [← hk]
  exact (ends_expect h (by simp [hk])).bind fun _ _ h₁ _ => .pure h₁.ahead trivial

theorem ends_keyword {k : Keyword} (h : Ahead s (.ok t :: rs)) (hk : t.kind = .keyword k) :
    Ends s rs limit (fun _ _ => True) (keyword k s) := by
  unfold keyword
  rw [← hk]
  exact (ends_expect h (by simp [hk])).bind fun _ _ h₁ _ => .pure h₁.ahead trivial

theorem ends_intern {name : String} (h : Ahead s rs) :
    Ends s rs limit (fun s' sym => s'.names.find? name = some sym) (intern name s) :=
  ⟨⟨h.congr rfl, rfl, .refl _, fun hn => Names.find?_intern_of_some name hn⟩, Names.find?_intern _ name⟩

theorem ends_identifier {name : String} (h : Ahead s (.ok t :: rs)) (hk : t.kind = .identifier name) :
    Ends s rs limit (fun s' x => s'.names.find? name = some x.1 ∧ x.2 = t.location) (identifier s) := by
  refine (ends_peekToken h).bind fun u s₁ h₁ hu => ?_
  subst hu
  rw [hk]
  refine (ends_skip h₁.ahead (by simp [hk])).bind fun _ s₂ h₂ _ => ?_
  exact (ends_intern h₂.ahead).bind fun sym s₃ h₃ hsym => .pure h₃.ahead ⟨hsym, rfl⟩

theorem ends_addExpr {x : Expr} {place : Location} (h : Ahead s rs) :
    Ends s rs limit (fun s' e => s'.arena.nodes[e.index]? = some ⟨x, some place⟩) (addExpr x place s) := by
  refine ⟨⟨h.congr rfl, rfl, s.arena.extends_addExpr x (some place), id⟩, ?_⟩
  simp

theorem ends_addDecl {x : Decl} (h : Ahead s rs) :
    Ends s rs limit (fun s' d => s'.arena.decl? d = some x) (addDecl x s) := by
  refine ⟨⟨h.congr rfl, rfl, s.arena.extends_addDecl x, id⟩, ?_⟩
  simp [Arena.decl?]

end Parser

end Fool
