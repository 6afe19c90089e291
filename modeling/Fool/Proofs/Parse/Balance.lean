import Fool.Proofs.Parse.Threads

/-!
# The depth is given back

Only `nested` changes how deep the parser is, and it comes back on success and on failure alike. `Passes p s ms` lists the
moments of a step: the parser behind each of the single steps it is put together from, and wherever one level is entered or
left. Whatever is read, behind it the depth is what it was in front, and at no moment is it smaller than that or beyond the
limit (`Passes.depth`). `balanced_of_calls` says so of any calls, one behind the other, of which some may fail.
-/

namespace Fool

namespace Parser

variable {α β : Type} {s s' m : Parser} {p : ParseM α}

/-- The parser behind a step, whether it succeeds or fails. -/
def after (p : ParseM α) (s : Parser) : Parser :=
  match p s with
  | .ok _ s' | .error _ s' => s'

/-- The single steps that stay at one level. -/
inductive Single : {α : Type} → ParseM α → Prop
  | pure {α : Type} (a : α) : Single (pure a)
  | throw {α : Type} (e : ParseError) : Single (throw e : ParseM α)
  | get : Single (get : ParseM Parser)
  | onTokens {α : Type} (r : Lookahead.Reading Cursor α) : Single (onTokens r)
  | intern (name : String) : Single (intern name)
  | bound : Single bound
  | addExpr (x : Expr) (place : Location) : Single (addExpr x place)
  | addDecl (x : Decl) : Single (addDecl x)

/-- The moments of a step that is put together from single steps. -/
inductive Passes : {α : Type} → ParseM α → Parser → List Parser → Prop
  | single {α : Type} {p : ParseM α} {s : Parser} : Single p → Passes p s [after p s]
  | bind {α β : Type} {p : ParseM α} {f : α → ParseM β} {s s₁ : Parser} {a : α} {ms ms' : List Parser} : Passes p s ms →
      p s = .ok a s₁ → Passes (f a) s₁ ms' → Passes (p >>= f) s (ms ++ ms')
  | bind_error {α β : Type} {p : ParseM α} {f : α → ParseM β} {s s₁ : Parser} {e : ParseError} {ms : List Parser} :
      Passes p s ms → p s = .error e s₁ → Passes (p >>= f) s ms
  | refused {α : Type} {p : ParseM α} {s : Parser} {ms : List Parser} : maxDepth ≤ s.depth → Passes (tooDeep : ParseM α) s ms →
      Passes (nested p) s ms
  | nested {α : Type} {p : ParseM α} {s : Parser} {ms : List Parser} : s.depth < maxDepth →
      Passes p { s with depth := s.depth + 1 } ms →
      Passes (nested p) s ({ s with depth := s.depth + 1 } :: ms ++ [after (nested p) s])

/-! ## One step -/

theorem after_of_ok {a : α} (h : p s = .ok a s') : after p s = s' := by rw [after, h]

theorem after_of_error {e : ParseError} (h : p s = .error e s') : after p s = s' := by rw [after, h]

theorem after_bind {f : α → ParseM β} {a : α} (h : p s = .ok a s') : after (p >>= f) s = after (f a) s' := by
  have hrun : (p >>= f) s = f a s' := by
    change EStateM.bind p f s = _
    rw [EStateM.bind, h]
  rw [after, hrun, after]

theorem after_bind_error {f : α → ParseM β} {e : ParseError} (h : p s = .error e s') : after (p >>= f) s = s' := by
  refine after_of_error (e := e) ?_
  change EStateM.bind p f s = _
  rw [EStateM.bind, h]

theorem Single.depth (h : Single p) (s : Parser) : (after p s).depth = s.depth := by
  cases h with
  | onTokens r =>
    unfold after Parser.onTokens
    cases r s.tokens <;> rfl
  | _ => rfl

theorem tooDeep_eq (s : Parser) : ∃ e s', ∀ {α : Type}, (tooDeep : ParseM α) s = .error e s' := by
  cases hl : location s with
  | ok l s' =>
    refine ⟨⟨.recursionLimit maxDepth, l⟩, s', ?_⟩
    intro α
    change EStateM.bind location _ s = _
    rw [EStateM.bind, hl]
    rfl
  | error e s' =>
    refine ⟨e, s', ?_⟩
    intro α
    change EStateM.bind location _ s = _
    rw [EStateM.bind, hl]

/-- Where the limit is reached, what is nested is not even begun. -/
theorem after_nested_of_le (h : maxDepth ≤ s.depth) : after (nested p) s = after (tooDeep : ParseM α) s := by
  obtain ⟨e, s', htooDeep⟩ := tooDeep_eq s
  have henter : enter s = .error e s' := (if_neg (Nat.not_lt.2 h)).trans htooDeep
  exact (after_bind_error henter).trans (after_of_error htooDeep).symm

theorem depth_nested (h : s.depth < maxDepth) :
    (after (nested p) s).depth = (after p { s with depth := s.depth + 1 }).depth - 1 := by
  have henter : enter s = .ok () { s with depth := s.depth + 1 } := if_pos h
  cases hp : p { s with depth := s.depth + 1 } with
  | ok a s' =>
    have hrun : nested p s = .ok a { s' with depth := s'.depth - 1 } := by
      unfold nested
      change EStateM.bind enter _ s = _
      simp only [EStateM.bind, henter, hp]
    rw [after_of_ok hrun, after_of_ok hp]
  | error e s' =>
    have hrun : nested p s = .error e { s' with depth := s'.depth - 1 } := by
      unfold nested
      change EStateM.bind enter _ s = _
      simp only [EStateM.bind, henter, hp]
    rw [after_of_error hrun, after_of_error hp]

/-! ## All moments of a step -/

/-- **Behind a step the depth is what it was**, and in between it is not smaller, and not beyond the limit. -/
theorem Passes.depth {ms : List Parser} (h : Passes p s ms) : (after p s).depth = s.depth ∧
    ∀ m ∈ ms, s.depth ≤ m.depth ∧ m.depth ≤ max s.depth maxDepth := by
  induction h with
  | single hp =>
    refine ⟨hp.depth _, fun m hm => ?_⟩
    rw [List.mem_singleton.1 hm, hp.depth]
    exact ⟨Nat.le_refl _, Nat.le_max_left ..⟩
  | @bind _ _ _ _ s s₁ _ _ _ _ hok _ ih ih' =>
    have hs₁ : s₁.depth = s.depth := by rw [← ih.1, after_of_ok hok]
    rw [hs₁] at ih'
    refine ⟨by rw [after_bind hok, ih'.1], fun m hm => ?_⟩
    exact (List.mem_append.1 hm).elim (ih.2 m) (ih'.2 m)
  | bind_error _ herror ih =>
    refine ⟨?_, ih.2⟩
    rw [after_bind_error herror, ← ih.1, after_of_error herror]
  | refused hle _ ih => exact ⟨by rw [after_nested_of_le hle, ih.1], ih.2⟩
  | @nested _ p s ms hlt _ ih =>
    obtain ⟨hafter, hms⟩ := ih
    have hback : (after (Parser.nested p) s).depth = s.depth := by
      rw [depth_nested hlt, hafter]
      rfl
    refine ⟨hback, fun m hm => ?_⟩
    change m ∈ { s with depth := s.depth + 1 } :: (ms ++ _) at hm
    rcases List.mem_cons.1 hm with rfl | hm
    · exact ⟨Nat.le_succ _, Nat.le_trans hlt (Nat.le_max_right ..)⟩
    rcases List.mem_append.1 hm with hm | hm
    · have hbounds := hms m hm
      simp only at hbounds
      omega
    · rw [List.mem_singleton.1 hm, hback]
      exact ⟨Nat.le_refl _, Nat.le_max_left ..⟩

theorem passes_bind {f : α → ParseM β} (hp : ∀ s, ∃ ms, Passes p s ms) (hf : ∀ a s, ∃ ms, Passes (f a) s ms) (s : Parser) :
    ∃ ms, Passes (p >>= f) s ms := by
  obtain ⟨ms, hms⟩ := hp s
  cases hrun : p s with
  | ok a s₁ =>
    obtain ⟨ms', hms'⟩ := hf a s₁
    exact ⟨_, hms.bind hrun hms'⟩
  | error e s₁ => exact ⟨_, hms.bind_error hrun⟩

theorem passes_tooDeep (s : Parser) : ∃ ms, Passes (tooDeep : ParseM α) s ms :=
  passes_bind (passes_bind (fun _ => ⟨_, .single (.onTokens _)⟩) fun _ _ => ⟨_, .single (.pure _)⟩)
    (fun _ _ => ⟨_, .single (.throw _)⟩) s

/-- Every step of the grammar is put together from single steps. -/
theorem Threads.passes {held : List Ref} {left : α → List Ref} (h : Threads held p left) (s : Parser) : ∃ ms, Passes p s ms := by
  induction h generalizing s with
  | pure => exact ⟨_, .single (.pure _)⟩
  | throw => exact ⟨_, .single (.throw _)⟩
  | get => exact ⟨_, .single .get⟩
  | onTokens r => exact ⟨_, .single (.onTokens r)⟩
  | intern name => exact ⟨_, .single (.intern name)⟩
  | bound => exact ⟨_, .single .bound⟩
  | addExpr place => exact ⟨_, .single (.addExpr _ place)⟩
  | addDecl => exact ⟨_, .single (.addDecl _)⟩
  | bind _ _ ih ih' => exact passes_bind ih ih' s
  | nested _ ih =>
    by_cases hlt : s.depth < maxDepth
    · obtain ⟨ms, hms⟩ := ih { s with depth := s.depth + 1 }
      exact ⟨_, hms.nested hlt⟩
    · obtain ⟨ms, hms⟩ := passes_tooDeep s
      exact ⟨_, .refused (Nat.le_of_not_lt hlt) hms⟩

/-! ## Calls -/

/-- What reads a part of a program. -/
inductive Reads : {α : Type} → ParseM α → Prop
  | expression : Reads Parser.expression
  | declaration : Reads Parser.declaration
  | declarations : Reads Parser.declarations
  | simpleType : Reads Parser.simpleType
  | anyType : Reads Parser.anyType

/-- Parts are read one behind the other, by the same parser; each call may fail. -/
inductive Calls (s : Parser) : Parser → Prop
  | none : Calls s s
  | more {α : Type} {s' : Parser} {p : ParseM α} : Calls s s' → Reads p → Calls s (after p s')

theorem Reads.threads (h : Reads p) : ∃ left, Threads [] p left := by
  cases h with
  | expression => exact ⟨_, hands_readExpression []⟩
  | declaration => exact ⟨_, hands_readDeclaration []⟩
  | declarations => exact ⟨_, hands_readDeclarations []⟩
  | simpleType => exact ⟨_, idle_readSimpleType []⟩
  | anyType => exact ⟨_, idle_readAnyType []⟩

theorem Reads.passes (h : Reads p) (s : Parser) : ∃ ms, Passes p s ms :=
  h.threads.elim fun _ hthreads => hthreads.passes s

theorem Calls.depth (h : Calls s s') : s'.depth = s.depth := by
  induction h with
  | none => rfl
  | @more _ s' _ _ hp ih =>
    obtain ⟨ms, hms⟩ := hp.passes s'
    exact hms.depth.1.trans ih

/-- **The depth is given back on every exit.** Whatever has been read before, with or without success, a further call finds
the depth at which the first one began, and leaves it, with or without success. At no moment of it the parser is less deep,
or deeper than it may be. -/
theorem balanced_of_calls (hcalls : Calls s s') (hp : Reads p) :
    s'.depth = s.depth ∧ (∀ a s'', p s' = .ok a s'' → s''.depth = s'.depth) ∧
      (∀ e s'', p s' = .error e s'' → s''.depth = s'.depth) ∧ (∃ ms, Passes p s' ms) ∧
      ∀ ms, Passes p s' ms → ∀ m ∈ ms, s.depth ≤ m.depth ∧ m.depth ≤ max s.depth maxDepth := by
  have hdepth := hcalls.depth
  obtain ⟨ms, hms⟩ := hp.passes s'
  have hafter := hms.depth.1
  refine ⟨hdepth, fun a s'' h => ?_, fun e s'' h => ?_, ⟨ms, hms⟩, fun ms' hms' m hm => ?_⟩
  · rwa [after_of_ok h] at hafter
  · rwa [after_of_error h] at hafter
  · rw [← hdepth]
    exact hms'.depth.2 m hm

/-- An expression that is nested too deep, and then a declaration is looked for. -/
theorem balanced_of_calls_parentheses : ∃ s s' e, s = ofText (String.ofList (List.replicate 65 '(')) .empty ∧
    Parser.expression s = .error e s' ∧ e.cause = .recursionLimit 64 ∧ Calls s s' ∧ Reads Parser.declaration ∧
    s'.depth = s.depth := by
  have hcause : (match Parser.expression (ofText (String.ofList (List.replicate 65 '(')) .empty) with
      | .ok .. => false
      | .error e _ => e.cause = .recursionLimit 64) = true := by decide +kernel
  cases h : Parser.expression (ofText (String.ofList (List.replicate 65 '(')) .empty) with
  | ok e s' =>
    rw [h] at hcause
    cases hcause
  | error e s' =>
    rw [h] at hcause
    have hcalls : Calls (ofText (String.ofList (List.replicate 65 '(')) .empty) s' := after_of_error h ▸ .more .none .expression
    exact ⟨_, s', e, rfl, h, of_decide_eq_true hcause, hcalls, .declaration, (balanced_of_calls hcalls .declaration).1⟩

end Parser

end Fool
