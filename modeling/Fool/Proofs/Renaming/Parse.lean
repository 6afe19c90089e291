import Fool.Parse.Program
import Fool.Proofs.Renaming.Names
import Fool.Proofs.Renaming.Tree

/-!
# Reading a text behind names met before

`s.behind base u` is the state `s` of a parser with the names of `base` in front of its own, the symbols in its tree
renumbered for the names `u` that are met in the end. `Parallel base u r p' p` says that the step `p'` does behind
`base` what the step `p` does without, up to the names `u`. Every step of the grammar is parallel to itself, so that a
text has the same tree behind all names (`parse_behind`).
-/

namespace Fool

namespace Parser

variable {α β : Type}

/-- The state behind the names of `base`. -/
def behind (base u : Names) (s : Parser) : Parser :=
  ⟨s.tokens, s.arena.rename (Names.renumber base u), base.extend s.names, s.depth⟩

/-- What a step answers. -/
abbrev Answer (α : Type) := EStateM.Result ParseError Parser α

namespace Answer

/-- The names met behind the step. -/
def names : Answer α → Names
  | .ok _ s => s.names
  | .error _ s => s.names

/-- The answer behind the names of `base`, its value changed by `r`. -/
def behind (base u : Names) (r : α → α) : Answer α → Answer α
  | .ok a s => .ok (r a) (s.behind base u)
  | .error e s => .error e (s.behind base u)

end Answer

/-- Behind the names of `base` the first step does what the second does without, as long as `u` has all the names that
are met. -/
structure Parallel (base u : Names) (r : α → α) (p' p : ParseM α) : Prop where
  grows : ∀ s : Parser, s.names.Grows (Answer.names (p s))
  run : ∀ s : Parser, (Answer.names (p s)).Grows u → p' (s.behind base u) = Answer.behind base u r (p s)

variable {base u : Names} {r : α → α} {r' : β → β}

namespace Parallel

/-- A step that leaves the names as they are. -/
theorem of_names {p' p : ParseM α} (hn : ∀ s, Answer.names (p s) = s.names)
    (h : ∀ s : Parser, p' (s.behind base u) = Answer.behind base u r (p s)) : Parallel base u r p' p :=
  ⟨fun s => hn s ▸ .refl _, fun s _ => h s⟩

theorem pure {a' a : α} (h : a' = r a) : Parallel base u r (pure a') (pure a) :=
  of_names (fun _ => rfl) fun _ => by rw [h]; rfl

theorem throw (e : ParseError) : Parallel base u r (throw e) (throw e) := of_names (fun _ => rfl) fun _ => rfl

/-- The names met by the first of two steps are met by both. -/
theorem bind {p' p : ParseM α} {k' k : α → ParseM β} (hp : Parallel base u r p' p)
    (hk : ∀ a, Parallel base u r' (k' (r a)) (k a)) : Parallel base u r' (p' >>= k') (p >>= k) where
  grows s := by
    have hs := hp.grows s
    simp only [Bind.bind, EStateM.bind]
    cases h : p s with
    | ok a s₁ =>
      rw [h] at hs
      exact hs.trans ((hk a).grows s₁)
    | error e s₁ =>
      rw [h] at hs
      exact hs
  run s hu := by
    simp only [Bind.bind, EStateM.bind] at hu ⊢
    cases h : p s with
    | ok a s₁ =>
      simp only [h] at hu ⊢
      rw [hp.run s (h ▸ ((hk a).grows s₁).trans hu), h]
      exact (hk a).run s₁ hu
    | error e s₁ =>
      simp only [h] at hu ⊢
      rw [hp.run s (h ▸ hu), h]
      rfl

theorem ite {c : Prop} [Decidable c] {p' p q' q : ParseM α} (hp : Parallel base u r p' p)
    (hq : Parallel base u r q' q) : Parallel base u r (if c then p' else q') (if c then p else q) := by
  split
  · exact hp
  · exact hq

end Parallel

/-! ## Tokens -/

theorem parallel_onTokens (x : Lookahead.Reading Cursor α) : Parallel base u id (onTokens x) (onTokens x) := by
  refine .of_names (fun s => ?_) fun s => ?_
  · simp only [onTokens]
    split <;> rfl
  · simp only [onTokens, behind]
    split <;> rfl

theorem parallel_peekToken : Parallel base u id peekToken peekToken := parallel_onTokens _

theorem parallel_peek : Parallel base u id peek peek := parallel_peekToken.bind fun _ => .pure rfl

theorem parallel_location : Parallel base u id location location := parallel_peekToken.bind fun _ => .pure rfl

theorem parallel_advance : Parallel base u id advance advance := parallel_onTokens _

theorem parallel_skip : Parallel base u id skip skip := parallel_advance.bind fun _ => .pure rfl

theorem parallel_unexpected (expected : String) : Parallel base u id (unexpected expected) (unexpected expected) :=
  parallel_peekToken.bind fun _ => .pure rfl

theorem parallel_refuse (expected : String) : Parallel base u r (refuse expected) (refuse expected) :=
  parallel_unexpected expected |>.bind fun e => .throw e

theorem parallel_expect (kind : TokenKind) : Parallel base u id (expect kind) (expect kind) :=
  parallel_peek.bind fun _ => parallel_advance.ite (parallel_refuse _)

theorem parallel_mark (m : Mark) : Parallel base u id (mark m) (mark m) := (parallel_expect _).bind fun _ => .pure rfl

theorem parallel_keyword (k : Keyword) : Parallel base u id (keyword k) (keyword k) :=
  (parallel_expect _).bind fun _ => .pure rfl

theorem parallel_bound : Parallel base u id bound bound := .of_names (fun _ => rfl) fun _ => rfl

/-! ## Names and nodes -/

theorem parallel_intern (name : String) : Parallel base u (Names.renumber base u) (intern name) (intern name) where
  grows s := s.names.grows_intern name
  run s hu := by
    simp only [intern, behind, Names.intern_extend hu]
    rfl

theorem parallel_identifier :
    Parallel base u (Prod.map (Names.renumber base u) id) identifier identifier := by
  refine parallel_peekToken.bind fun t => ?_
  dsimp only [id]
  split
  · exact parallel_skip.bind fun _ => (parallel_intern _).bind fun _ => .pure rfl
  · exact parallel_refuse _

theorem parallel_addExpr (e : Expr) (place : Location) :
    Parallel base u id (addExpr (e.rename (Names.renumber base u)) place) (addExpr e place) :=
  .of_names (fun _ => rfl) fun s => by
    simp only [addExpr, behind, Arena.addExpr_rename]
    rfl

theorem parallel_addDecl (d : Decl) :
    Parallel base u id (addDecl (d.rename (Names.renumber base u))) (addDecl d) :=
  .of_names (fun _ => rfl) fun s => by
    simp only [addDecl, behind, Arena.addDecl_rename]
    rfl

/-! ## Nesting -/

theorem parallel_tooDeep : Parallel base u r tooDeep tooDeep := parallel_location.bind fun _ => .throw _

theorem parallel_enter : Parallel base u id enter enter := by
  have htoo : Parallel base u id (tooDeep : ParseM Unit) tooDeep := parallel_tooDeep
  refine ⟨fun s => ?_, fun s hu => ?_⟩
  · unfold enter
    split
    · exact .refl _
    · exact htoo.grows s
  · unfold enter at hu ⊢
    change (if s.depth < maxDepth then _ else _) = _
    split
    · rfl
    · rw [if_neg ‹_›] at hu
      exact htoo.run s hu

theorem parallel_nested {p : ParseM α} (h : Parallel base u r p p) : Parallel base u r (nested p) (nested p) := by
  refine parallel_enter.bind fun _ => ⟨fun s => ?_, fun s hu => ?_⟩
  · have hs := h.grows s
    cases hp : p s <;> rw [hp] at hs <;> exact hs
  · have hs := h.run s
    cases hp : p s <;> simp only [hp] at hu hs ⊢ <;> rw [hs hu] <;> rfl

end Parser

/-! ## The grammar -/

namespace Grammar

open Fool.Parser

variable {α : Type} {base u : Names} {r : α → α}

theorem parallel_items {item : ParseM α} (h : Parallel base u r item item) :
    ∀ n : Nat, Parallel base u (List.map r) (items item n) (items item n)
  | 0 => .pure rfl
  | n + 1 => by
    refine h.bind fun _ => parallel_peek.bind fun _ => Parallel.ite ?_ ?_
    · refine parallel_skip.bind fun _ => (parallel_items h n).bind fun _ => ?_
      exact .pure rfl
    · exact .pure rfl

theorem parallel_commaSeparated {item : ParseM α} (h : Parallel base u r item item) (bound : Nat) :
    Parallel base u (List.map r) (commaSeparated bound item) (commaSeparated bound item) :=
  parallel_peek.bind fun _ => Parallel.ite (.pure rfl) (parallel_items h bound)

/-! ### Types -/

theorem parallel_simpleType : Parallel base u (Ty.rename (Names.renumber base u)) simpleType simpleType := by
  refine parallel_peek.bind fun t => ?_
  dsimp only [id]
  split
  · exact parallel_skip.bind fun _ => .pure rfl
  · exact parallel_skip.bind fun _ => .pure rfl
  · exact parallel_identifier.bind fun _ => .pure rfl
  · exact parallel_refuse _

theorem parallel_anyType (bound : Nat) :
    ∀ n : Nat, Parallel base u (Ty.rename (Names.renumber base u)) (anyType bound n) (anyType bound n)
  | 0 => parallel_tooDeep
  | n + 1 => by
    refine parallel_peek.bind fun t => Parallel.ite ?_ parallel_simpleType
    refine parallel_skip.bind fun _ =>
      (parallel_commaSeparated (parallel_nested (parallel_anyType bound n)) bound).bind fun params => ?_
    refine (parallel_mark _).bind fun _ => (parallel_mark _).bind fun _ => parallel_simpleType.bind fun ret => ?_
    exact .pure (by rw [Ty.rename, Ty.renameAll_eq_map])

theorem parallel_typedName {type : ParseM Ty} (h : Parallel base u (Ty.rename (Names.renumber base u)) type type) :
    Parallel base u (TypedName.rename (Names.renumber base u)) (typedName type) (typedName type) :=
  parallel_identifier.bind fun _ => (parallel_mark _).bind fun _ => h.bind fun _ => .pure rfl

/-! ### Expressions -/

theorem parallel_chainFrom (op? : TokenKind → Option Operator) {operand : ParseM ExprRef}
    (h : Parallel base u id operand operand) :
    ∀ (n : Nat) (left : ExprRef), Parallel base u id (chainFrom op? operand n left) (chainFrom op? operand n left)
  | 0, _ => .pure rfl
  | n + 1, left => by
    refine parallel_peekToken.bind fun t => ?_
    dsimp only [id]
    split
    · exact .pure rfl
    · exact parallel_skip.bind fun _ => h.bind fun right =>
        (parallel_addExpr (.binary _ left right) _).bind fun whole => parallel_chainFrom op? h n whole

theorem parallel_chain (bound : Nat) (op? : TokenKind → Option Operator) {operand : ParseM ExprRef}
    (h : Parallel base u id operand operand) : Parallel base u id (chain bound op? operand) (chain bound op? operand) :=
  h.bind fun first => parallel_chainFrom op? h bound first

theorem parallel_logical (bound : Nat) {unary : ParseM ExprRef} (h : Parallel base u id unary unary) :
    Parallel base u id (logical bound unary) (logical bound unary) :=
  parallel_chain bound _ (parallel_chain bound _ (parallel_chain bound _ (parallel_chain bound _ h)))

variable {expr : ParseM ExprRef} (hexpr : Parallel base u id expr expr)
include hexpr

theorem parallel_arguments (bound : Nat) : Parallel base u id (arguments bound expr) (arguments bound expr) :=
  (parallel_mark _).bind fun _ => (parallel_commaSeparated hexpr bound).bind fun args =>
    (parallel_mark _).bind fun _ => .pure (List.map_id args)

theorem parallel_braced : Parallel base u id (braced expr) (braced expr) :=
  (parallel_mark _).bind fun _ => hexpr.bind fun _ => (parallel_mark _).bind fun _ => .pure rfl

theorem parallel_parenthesized : Parallel base u id (parenthesized expr) (parenthesized expr) :=
  (parallel_mark _).bind fun _ => hexpr.bind fun _ => (parallel_mark _).bind fun _ => .pure rfl

theorem parallel_named (bound : Nat) : Parallel base u id (named bound expr) (named bound expr) := by
  refine parallel_identifier.bind fun ⟨name, place⟩ => parallel_peek.bind fun t => ?_
  dsimp only [id, Prod.map]
  split
  · exact (parallel_arguments hexpr bound).bind fun args => parallel_addExpr (.call name args) place
  · exact parallel_skip.bind fun _ => parallel_identifier.bind fun method =>
      (parallel_arguments hexpr bound).bind fun args => parallel_addExpr (.methodCall name method.1 args) place
  · exact parallel_addExpr (.name name) place

theorem parallel_primary (bound : Nat) : Parallel base u id (primary bound expr) (primary bound expr) := by
  refine parallel_peekToken.bind fun t => ?_
  dsimp only [id]
  generalize t.kind = kind
  cases kind with
  | number value => exact parallel_skip.bind fun _ => parallel_addExpr (.int _) _
  | identifier name => exact parallel_named hexpr bound
  | endOfInput => exact .throw _
  | mark m =>
    cases m with
    | minus =>
      refine parallel_skip.bind fun _ => parallel_peek.bind fun t' => ?_
      dsimp only [id]
      split
      · exact parallel_skip.bind fun _ => parallel_addExpr (.int _) _
      · exact parallel_refuse _
    | parenOpen => exact parallel_parenthesized hexpr
    | _ => exact .throw _
  | keyword k =>
    cases k with
    | trueKw => exact parallel_skip.bind fun _ => parallel_addExpr (.bool true) _
    | falseKw => exact parallel_skip.bind fun _ => parallel_addExpr (.bool false) _
    | nullKw => exact parallel_skip.bind fun _ => parallel_addExpr .null _
    | ifKw =>
      refine parallel_skip.bind fun _ => hexpr.bind fun condition => (parallel_keyword _).bind fun _ => ?_
      refine (parallel_braced hexpr).bind fun onTrue => (parallel_keyword _).bind fun _ => ?_
      exact (parallel_braced hexpr).bind fun onFalse => parallel_addExpr (.ifElse condition onTrue onFalse) _
    | printKw =>
      exact parallel_skip.bind fun _ => (parallel_parenthesized hexpr).bind fun operand =>
        parallel_addExpr (.print operand) _
    | newKw =>
      exact parallel_skip.bind fun _ => parallel_identifier.bind fun name =>
        (parallel_arguments hexpr bound).bind fun args => parallel_addExpr (.new name.1 args) name.2
    | _ => exact .throw _

omit hexpr

theorem parallel_unary (bound : Nat) : ∀ n : Nat, Parallel base u id (unary bound n) (unary bound n)
  | 0 => parallel_tooDeep
  | n + 1 => by
    have ih := parallel_unary bound n
    refine parallel_peekToken.bind fun t => Parallel.ite ?_ ?_
    · exact parallel_skip.bind fun _ => (parallel_nested ih).bind fun operand => parallel_addExpr (.not operand) _
    · exact parallel_primary (parallel_nested (parallel_logical bound ih)) bound

theorem parallel_expression (bound : Nat) : Parallel base u id (expression bound) (expression bound) :=
  parallel_nested (parallel_logical bound (parallel_unary bound maxDepth))

/-! ### Declarations -/

theorem parallel_atDeclaration : Parallel base u id atDeclaration atDeclaration := by
  refine parallel_peek.bind fun t => ?_
  dsimp only [id]
  split <;> exact .pure rfl

theorem parallel_declarationsFrom {decl : ParseM DeclRef} (h : Parallel base u id decl decl) :
    ∀ n : Nat, Parallel base u id (declarationsFrom decl n) (declarationsFrom decl n)
  | 0 => .pure rfl
  | n + 1 => by
    refine parallel_atDeclaration.bind fun _ => Parallel.ite ?_ ?_
    · refine h.bind fun _ => (parallel_declarationsFrom h n).bind fun _ => ?_
      exact .pure rfl
    · exact .pure rfl

theorem parallel_declarations (bound : Nat) {decl : ParseM DeclRef} (h : Parallel base u id decl decl) :
    Parallel base u id (declarations bound decl) (declarations bound decl) :=
  parallel_atDeclaration.bind fun _ => (parallel_declarationsFrom h bound).ite (parallel_refuse _)

theorem parallel_letBlock (bound : Nat) {decl : ParseM DeclRef} (h : Parallel base u id decl decl) :
    Parallel base u id (letBlock bound decl) (letBlock bound decl) :=
  parallel_peek.bind fun _ => Parallel.ite
    (parallel_skip.bind fun _ => (parallel_declarations bound h).bind fun _ =>
      (parallel_keyword _).bind fun _ => .pure rfl) (.pure rfl)

theorem parallel_variableDecl (bound : Nat) :
    Parallel base u (Variable.rename (Names.renumber base u)) (variableDecl bound) (variableDecl bound) := by
  refine parallel_location.bind fun place => (parallel_keyword _).bind fun _ => parallel_identifier.bind fun name => ?_
  refine (parallel_mark _).bind fun _ => (parallel_anyType bound (maxDepth + 1)).bind fun ty => ?_
  exact (parallel_mark _).bind fun _ => (parallel_expression bound).bind fun init => (parallel_mark _).bind fun _ =>
    .pure rfl

theorem parallel_function (bound : Nat) {decl : ParseM DeclRef} (h : Parallel base u id decl decl) :
    Parallel base u (Function.rename (Names.renumber base u)) (function bound decl) (function bound decl) := by
  refine parallel_location.bind fun place => (parallel_keyword _).bind fun _ => parallel_identifier.bind fun name => ?_
  refine (parallel_mark _).bind fun _ => parallel_simpleType.bind fun ret => (parallel_mark _).bind fun _ => ?_
  have htyped : Parallel base u _ (typedName (anyType bound (maxDepth + 1))) _ :=
    parallel_typedName (parallel_anyType bound _)
  refine (parallel_commaSeparated htyped bound).bind fun params => (parallel_mark _).bind fun _ => ?_
  refine (parallel_nested (parallel_letBlock bound h)).bind fun locals => ?_
  exact (parallel_expression bound).bind fun body => (parallel_mark _).bind fun _ => .pure rfl

theorem parallel_methods {method : ParseM Function}
    (h : Parallel base u (Function.rename (Names.renumber base u)) method method) :
    ∀ n : Nat, Parallel base u (List.map (Function.rename (Names.renumber base u))) (methods method n) (methods method n)
  | 0 => .pure rfl
  | n + 1 => by
    refine parallel_peek.bind fun _ => Parallel.ite ?_ ?_
    · refine h.bind fun _ => (parallel_methods h n).bind fun _ => ?_
      exact .pure rfl
    · exact .pure rfl

theorem parallel_classDecl (bound : Nat) {decl : ParseM DeclRef} (h : Parallel base u id decl decl) :
    Parallel base u (Class.rename (Names.renumber base u)) (classDecl bound decl) (classDecl bound decl) := by
  refine parallel_location.bind fun place => (parallel_keyword _).bind fun _ => parallel_identifier.bind fun name => ?_
  have htyped : Parallel base u _ (typedName simpleType) _ := parallel_typedName parallel_simpleType
  refine (parallel_mark _).bind fun _ => (parallel_commaSeparated htyped bound).bind fun fields => ?_
  refine (parallel_mark _).bind fun _ => (parallel_mark _).bind fun _ => ?_
  exact (parallel_methods (parallel_function bound h) bound).bind fun ms => (parallel_mark _).bind fun _ => .pure rfl

theorem parallel_declaration (bound : Nat) : ∀ n : Nat, Parallel base u id (declaration bound n) (declaration bound n)
  | 0 => parallel_tooDeep
  | n + 1 => by
    have ih := parallel_declaration bound n
    refine parallel_peek.bind fun t => ?_
    dsimp only [id]
    split
    · exact (parallel_variableDecl bound).bind fun v => parallel_addDecl (.varDecl v)
    · exact (parallel_function bound ih).bind fun f => parallel_addDecl (.funDecl f)
    · exact (parallel_classDecl bound ih).bind fun c => parallel_addDecl (.classDecl c)
    · exact parallel_refuse _

end Grammar

namespace Parser

variable {base u : Names}

theorem parallel_get {α : Type} {r : α → α} {k' k : Parser → ParseM α}
    (h : ∀ s, Parallel base u r (k' (s.behind base u)) (k s)) : Parallel base u r (get >>= k') (get >>= k) :=
  ⟨fun s => (h s).grows s, fun s => (h s).run s⟩

theorem parallel_program : Parallel base u (Program.rename (Names.renumber base u)) program program := by
  refine parallel_bound.bind fun n => ?_
  refine (Grammar.parallel_letBlock n (Grammar.parallel_declaration n _)).bind fun declarations => ?_
  refine (Grammar.parallel_expression n).bind fun body => (parallel_mark _).bind fun _ => ?_
  exact (parallel_expect _).bind fun _ => parallel_get fun s => .pure rfl

end Parser

/-- The names that reading a program has met. -/
def Program.namesOf (text : String) : Names := (parse text .empty).2

/-- No name has two symbols. -/
theorem Program.namesOf_distinct (text : String) : (namesOf text).entries.toList.Nodup := by
  have hparallel : Parser.Parallel .empty .empty _ Parser.program Parser.program := Parser.parallel_program
  have hgrows := hparallel.grows (.ofText text .empty)
  have hnames : Parser.Answer.names (Parser.program (.ofText text .empty)) = namesOf text := by
    simp only [namesOf, parse]
    split <;> simp only [*, Parser.Answer.names]
  exact hnames ▸ hgrows.distinct List.nodup_nil

/-- **A program read behind other names is the program read without, its symbols renumbered.** -/
theorem Program.parse_behind (text : String) (base : Names) :
    parse text base = ((parse text .empty).1.map (rename (Names.renumber base (namesOf text))),
      base.extend (namesOf text)) := by
  have hparallel : Parser.Parallel base (namesOf text) _ Parser.program Parser.program := Parser.parallel_program
  have hrun := hparallel.run (.ofText text .empty)
  have hstart : (Parser.ofText text .empty).behind base (namesOf text) = .ofText text base := by
    simp [Parser.behind, Parser.ofText]
  rw [hstart] at hrun
  unfold parse
  cases h : Parser.program (.ofText text .empty) with
  | ok p s =>
    have hu : namesOf text = s.names := by simp only [namesOf, parse, h]
    rw [hrun (by rw [h, hu]; exact .refl _), h, hu]
    rfl
  | error e s =>
    have hu : namesOf text = s.names := by simp only [namesOf, parse, h]
    rw [hrun (by rw [h, hu]; exact .refl _), h, hu]
    rfl

end Fool
