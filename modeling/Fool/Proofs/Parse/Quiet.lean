import Fool.Parse.Program

/-!
# Steps of reading that leave the tree alone

A step is `Quiet` if, when it succeeds, the tree and the depth are what they were: tokens and names may have changed.
All steps on tokens are quiet, and so is the reading of types. `nested` is the only step that changes the depth, for
the time of what it encloses (`nested_ok`).
-/

namespace Fool

namespace Parser

variable {α β : Type}

/-- A step that consists of two succeeds if both do. -/
theorem bind_ok {x : ParseM α} {f : α → ParseM β} {s s'' : Parser} {b : β} (h : (x >>= f) s = .ok b s'') :
    ∃ a s', x s = .ok a s' ∧ f a s' = .ok b s'' := by
  simp only [bind, EStateM.bind] at h
  split at h
  · exact ⟨_, _, ‹_›, h⟩
  · cases h

theorem pure_ok {a b : α} {s s' : Parser} (h : (pure a : ParseM α) s = .ok b s') : a = b ∧ s = s' := by
  cases h
  exact ⟨rfl, rfl⟩

/-- The states have the same tree and the same depth. -/
structure Same (s s' : Parser) : Prop where
  arena : s'.arena = s.arena
  depth : s'.depth = s.depth

theorem Same.refl (s : Parser) : Same s s := ⟨rfl, rfl⟩

theorem Same.trans {s s' s'' : Parser} (h : Same s s') (h' : Same s' s'') : Same s s'' :=
  ⟨h'.arena.trans h.arena, h'.depth.trans h.depth⟩

/-- The step leaves the tree and the depth alone. -/
def Quiet (p : ParseM α) : Prop := ∀ (s : Parser) (a : α) (s' : Parser), p s = .ok a s' → Same s s'

theorem Quiet.pure (a : α) : Quiet (pure a : ParseM α) := fun _ _ _ h => (pure_ok h).2 ▸ Same.refl _

theorem Quiet.bind {p : ParseM α} {f : α → ParseM β} (hp : Quiet p) (hf : ∀ a, Quiet (f a)) : Quiet (p >>= f) := by
  intro s b s' h
  obtain ⟨a, s₁, h₁, h₂⟩ := bind_ok h
  exact (hp s a s₁ h₁).trans (hf a s₁ b s' h₂)

theorem Quiet.ite {c : Prop} [Decidable c] {p q : ParseM α} (hp : Quiet p) (hq : Quiet q) :
    Quiet (if c then p else q) := by
  split
  · exact hp
  · exact hq

theorem Quiet.throw (e : ParseError) : Quiet (throw e : ParseM α) := fun _ _ _ h => by cases h

/-! ## Tokens and names -/

theorem Quiet.onTokens (r : Lookahead.Reading Cursor α) : Quiet (onTokens r) := by
  intro s a s' h
  simp only [Parser.onTokens] at h
  split at h
  · cases h
    exact ⟨rfl, rfl⟩
  · cases h

theorem Quiet.peekToken : Quiet peekToken := Quiet.onTokens _

theorem Quiet.peek : Quiet peek := Quiet.peekToken.bind fun _ => Quiet.pure _

theorem Quiet.location : Quiet location := Quiet.peekToken.bind fun _ => Quiet.pure _

theorem Quiet.advance : Quiet advance := Quiet.onTokens _

theorem Quiet.skip : Quiet skip := Quiet.advance.bind fun _ => Quiet.pure _

theorem Quiet.refuse (expected : String) : Quiet (refuse expected : ParseM α) :=
  (Quiet.peekToken.bind fun _ => Quiet.pure _).bind fun _ => Quiet.throw _

theorem Quiet.expect (kind : TokenKind) : Quiet (expect kind) :=
  Quiet.peek.bind fun _ => Quiet.advance.ite (Quiet.refuse _)

theorem Quiet.mark (m : Mark) : Quiet (mark m) := (Quiet.expect _).bind fun _ => Quiet.pure _

theorem Quiet.keyword (k : Keyword) : Quiet (keyword k) := (Quiet.expect _).bind fun _ => Quiet.pure _

theorem Quiet.intern (name : String) : Quiet (intern name) := fun _ _ _ h => by
  cases h
  exact ⟨rfl, rfl⟩

theorem Quiet.identifier : Quiet identifier := by
  refine Quiet.peekToken.bind fun t => ?_
  split
  · exact Quiet.skip.bind fun _ => (Quiet.intern _).bind fun _ => Quiet.pure _
  · exact Quiet.refuse _

theorem Quiet.tooDeep : Quiet (tooDeep : ParseM α) := Quiet.location.bind fun _ => Quiet.throw _

theorem Quiet.bound : Quiet bound := fun _ _ _ h => by
  cases h
  exact ⟨rfl, rfl⟩

theorem tooDeep_ne_ok {s s' : Parser} {a : α} : (tooDeep : ParseM α) s ≠ .ok a s' := by
  intro h
  obtain ⟨_, _, _, h⟩ := bind_ok h
  cases h

theorem refuse_ne_ok {s s' : Parser} {a : α} {expected : String} : (refuse expected : ParseM α) s ≠ .ok a s' := by
  intro h
  obtain ⟨_, _, _, h⟩ := bind_ok h
  cases h

/-! ## Nesting -/

/-- What is nested is read one level deeper, and only below the limit. -/
theorem nested_ok {p : ParseM α} {s s' : Parser} {a : α} (h : nested p s = .ok a s') :
    s.depth < maxDepth ∧ ∃ s₁, p { s with depth := s.depth + 1 } = .ok a s₁ ∧
      s' = { s₁ with depth := s₁.depth - 1 } := by
  obtain ⟨u, s₀, h₀, h⟩ := bind_ok h
  unfold enter at h₀
  split at h₀
  · cases h₀
    refine ⟨‹_›, ?_⟩
    split at h
    · cases h
      exact ⟨_, ‹_›, rfl⟩
    · cases h
  · exact absurd h₀ tooDeep_ne_ok

theorem Quiet.nested {p : ParseM α} (hp : Quiet p) : Quiet (nested p) := by
  intro s a s' h
  obtain ⟨-, s₁, h₁, rfl⟩ := nested_ok h
  have hs := hp _ a s₁ h₁
  exact ⟨hs.arena, by simp [hs.depth]⟩

end Parser

/-! ## Types -/

namespace Grammar

open Fool.Parser

variable {α : Type}

theorem quiet_items {item : ParseM α} (h : Quiet item) : ∀ n : Nat, Quiet (items item n)
  | 0 => Quiet.pure _
  | n + 1 => h.bind fun _ => Quiet.peek.bind fun _ =>
    (Quiet.skip.bind fun _ => (quiet_items h n).bind fun _ => Quiet.pure _).ite (Quiet.pure _)

theorem quiet_commaSeparated {item : ParseM α} (h : Quiet item) (bound : Nat) : Quiet (commaSeparated bound item) :=
  Quiet.peek.bind fun _ => (Quiet.pure _).ite (quiet_items h bound)

theorem quiet_simpleType : Quiet simpleType := by
  refine Quiet.peek.bind fun t => ?_
  split
  · exact Quiet.skip.bind fun _ => Quiet.pure _
  · exact Quiet.skip.bind fun _ => Quiet.pure _
  · exact Quiet.identifier.bind fun _ => Quiet.pure _
  · exact Quiet.refuse _

theorem quiet_anyType (bound : Nat) : ∀ n : Nat, Quiet (anyType bound n)
  | 0 => Quiet.tooDeep
  | n + 1 => by
    refine Quiet.peek.bind fun t => Quiet.ite ?_ quiet_simpleType
    refine Quiet.skip.bind fun _ => (quiet_commaSeparated (quiet_anyType bound n).nested bound).bind fun _ => ?_
    exact (Quiet.mark _).bind fun _ => (Quiet.mark _).bind fun _ => quiet_simpleType.bind fun _ => Quiet.pure _

theorem quiet_typedName {type : ParseM Ty} (h : Quiet type) : Quiet (typedName type) :=
  Quiet.identifier.bind fun _ => (Quiet.mark _).bind fun _ => h.bind fun _ => Quiet.pure _

theorem quiet_atDeclaration : Quiet atDeclaration := by
  refine Quiet.peek.bind fun t => ?_
  split <;> exact Quiet.pure _

end Grammar

end Fool
