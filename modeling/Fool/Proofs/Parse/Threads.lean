import Fool.Parse.Program
import Fool.Proofs.Tree.Refs

/-!
# What is in hand while a program is read

Adding an expression or a declaration gives a reference to it. Whoever gets one has it in hand, until it is put into what is
added next. `Threads held p left` says that the step `p` is put together from single steps in this way: with the references
`held` in hand before it, those in `left a` are in hand behind it when it gives `a`, and each is used once. It says nothing
of steps that fail: how they may fail is seen from the single steps.

Every part of the grammar is of this kind (`hands_expression`, `hands_declaration`, `hands_program`); so what is to be said
of all of them, also when they fail, is proved by induction on `Threads`.
-/

namespace Fool

namespace Parser

variable {α β : Type} {g : α → List Ref}

/-- Steps that are put together from single steps, and the references that are in hand before and behind them. -/
inductive Threads : {α : Type} → List Ref → ParseM α → (α → List Ref) → Prop
  | pure {α : Type} {a : α} {held : List Ref} {left : α → List Ref} : held.Perm (left a) → Threads held (pure a) left
  | throw {α : Type} {e : ParseError} {held : List Ref} {left : α → List Ref} : Threads held (throw e) left
  | get {held : List Ref} : Threads held get fun _ => held
  | onTokens {α : Type} (r : Lookahead.Reading Cursor α) {held : List Ref} : Threads held (onTokens r) fun _ => held
  | intern (name : String) {held : List Ref} : Threads held (intern name) fun _ => held
  | bound {held : List Ref} : Threads held bound fun _ => held
  | addExpr {x : Expr} (place : Location) {held rest : List Ref} : held.Perm (x.refs ++ rest) →
      Threads held (addExpr x place) fun e => .expr e :: rest
  | addDecl {x : Decl} {held rest : List Ref} : held.Perm (x.refs ++ rest) → Threads held (addDecl x) fun d => .decl d :: rest
  | bind {α β : Type} {p : ParseM α} {f : α → ParseM β} {held : List Ref} {mid : α → List Ref} {left : β → List Ref} :
      Threads held p mid → (∀ a, Threads (mid a) (f a) left) → Threads held (p >>= f) left
  | nested {α : Type} {p : ParseM α} {held : List Ref} {left : α → List Ref} : Threads held p left → Threads held (nested p) left

theorem Threads.ite {c : Prop} [Decidable c] {p q : ParseM α} {held : List Ref} {left : α → List Ref}
    (hp : Threads held p left) (hq : Threads held q left) : Threads held (if c then p else q) left := by
  split
  · exact hp
  · exact hq

/-- Whatever is in hand, the references in the result are in hand behind the step too. -/
def Hands (g : α → List Ref) (p : ParseM α) : Prop := ∀ held, Threads held p fun a => g a ++ held

/-- Behind the step the same references are in hand. -/
abbrev Idle (p : ParseM α) : Prop := Hands (fun _ => []) p

theorem Hands.congr {g' : α → List Ref} {p : ParseM α} (h : Hands g p) (hg : ∀ a, g a = g' a) : Hands g' p :=
  (funext hg : g = g') ▸ h

theorem Hands.nested {p : ParseM α} (h : Hands g p) : Hands g (nested p) := fun held => (h held).nested

/-! ## Tokens and names -/

theorem idle_peekToken : Idle peekToken := fun _ => .onTokens _

theorem idle_peek : Idle peek := fun held => (idle_peekToken held).bind fun _ => .pure (.refl _)

theorem idle_location : Idle location := fun held => (idle_peekToken held).bind fun _ => .pure (.refl _)

theorem idle_advance : Idle advance := fun _ => .onTokens _

theorem idle_skip : Idle skip := fun held => (idle_advance held).bind fun _ => .pure (.refl _)

theorem idle_unexpected (expected : String) : Idle (unexpected expected) :=
  fun held => (idle_peekToken held).bind fun _ => .pure (.refl _)

theorem hands_refuse (expected : String) : Hands g (refuse expected) :=
  fun held => (idle_unexpected expected held).bind fun _ => .throw

theorem idle_expect (kind : TokenKind) : Idle (expect kind) :=
  fun held => (idle_peek held).bind fun _ => .ite (idle_advance held) (hands_refuse _ held)

theorem idle_mark (m : Mark) : Idle (mark m) := fun held => (idle_expect _ held).bind fun _ => .pure (.refl _)

theorem idle_keyword (k : Keyword) : Idle (keyword k) := fun held => (idle_expect _ held).bind fun _ => .pure (.refl _)

theorem idle_identifier : Idle identifier := by
  refine fun held => (idle_peekToken held).bind fun t => ?_
  split
  · exact (idle_skip held).bind fun _ => (Threads.intern _).bind fun _ => .pure (.refl _)
  · exact hands_refuse _ held

theorem hands_tooDeep : Hands g tooDeep := fun held => (idle_location held).bind fun _ => .throw

end Parser

namespace Grammar

open Fool.Parser

variable {α : Type} {g : α → List Ref} {bound : Nat}

/-! ## Types and lists -/

theorem hands_items {item : ParseM α} (h : Hands g item) : ∀ n : Nat, Hands (fun as => as.flatMap g) (items item n)
  | 0 => fun _ => .pure (.refl _)
  | n + 1 => fun held => by
    refine (h held).bind fun a => (idle_peek _).bind fun _ => .ite ?_ (.pure ?_)
    · refine (idle_skip _).bind fun _ => (hands_items h n _).bind fun as => .pure ?_
      show (as.flatMap g ++ (g a ++ held)).Perm ((a :: as).flatMap g ++ held)
      rw [List.flatMap_cons, List.append_assoc]
      exact List.perm_append_comm_assoc ..
    · show (g a ++ held).Perm ([a].flatMap g ++ held)
      rw [List.flatMap_singleton]

theorem hands_commaSeparated {item : ParseM α} (h : Hands g item) :
    Hands (fun as => as.flatMap g) (commaSeparated bound item) :=
  fun held => (idle_peek held).bind fun _ => .ite (.pure (.refl _)) (hands_items h bound held)

theorem idle_commaSeparated {item : ParseM α} (h : Idle item) : Idle (commaSeparated bound item) :=
  (hands_commaSeparated h).congr fun _ => List.flatMap_eq_nil_iff.2 fun _ _ => rfl

theorem idle_simpleType : Idle simpleType := by
  refine fun held => (idle_peek held).bind fun t => ?_
  split
  · exact (idle_skip held).bind fun _ => .pure (.refl _)
  · exact (idle_skip held).bind fun _ => .pure (.refl _)
  · exact (idle_identifier held).bind fun _ => .pure (.refl _)
  · exact hands_refuse _ held

theorem idle_anyType : ∀ n : Nat, Idle (anyType bound n)
  | 0 => hands_tooDeep
  | n + 1 => fun held => by
    refine (idle_peek held).bind fun _ => .ite ?_ (idle_simpleType held)
    refine (idle_skip held).bind fun _ => (idle_commaSeparated (idle_anyType n).nested held).bind fun _ => ?_
    exact (idle_mark _ held).bind fun _ => (idle_mark _ held).bind fun _ => (idle_simpleType held).bind fun _ => .pure (.refl _)

theorem idle_typedName {type : ParseM Ty} (h : Idle type) : Idle (typedName type) :=
  fun held => (idle_identifier held).bind fun _ => (idle_mark _ held).bind fun _ => (h held).bind fun _ => .pure (.refl _)

/-! ## Expressions -/

/-- The reference to an expression is in hand behind the step. -/
abbrev HandsExpr (p : ParseM ExprRef) : Prop := Hands (fun e => [.expr e]) p

theorem threads_chainFrom {op? : TokenKind → Option Operator} {operand : ParseM ExprRef} (ho : HandsExpr operand)
    {held : List Ref} : ∀ (n : Nat) (left : ExprRef),
      Threads (.expr left :: held) (chainFrom op? operand n left) fun e => .expr e :: held
  | 0, _ => .pure (.refl _)
  | n + 1, left => by
    refine (idle_peekToken _).bind fun t => ?_
    split
    · exact .pure (.refl _)
    · refine (idle_skip _).bind fun _ => (ho _).bind fun right => .bind (.addExpr _ ?_) fun whole => threads_chainFrom ho n whole
      exact .swap ..

theorem hands_chain {op? : TokenKind → Option Operator} {operand : ParseM ExprRef} (ho : HandsExpr operand) :
    HandsExpr (chain bound op? operand) :=
  fun held => (ho held).bind fun left => threads_chainFrom ho bound left

theorem hands_logical {unary : ParseM ExprRef} (hu : HandsExpr unary) : HandsExpr (logical bound unary) :=
  hands_chain (hands_chain (hands_chain (hands_chain hu)))

theorem hands_arguments {expr : ParseM ExprRef} (he : HandsExpr expr) :
    Hands (fun es => es.map .expr) (arguments bound expr) := by
  refine fun held => (idle_mark _ held).bind fun _ => (hands_commaSeparated he held).bind fun args => ?_
  refine (idle_mark _ _).bind fun _ => .pure ?_
  show (args.flatMap (fun e => [Ref.expr e]) ++ held).Perm (args.map Ref.expr ++ held)
  rw [← List.map_eq_flatMap]

theorem hands_parenthesized {expr : ParseM ExprRef} (he : HandsExpr expr) : HandsExpr (parenthesized expr) :=
  fun held => (idle_mark _ held).bind fun _ => (he held).bind fun _ => (idle_mark _ _).bind fun _ => .pure (.refl _)

theorem hands_braced {expr : ParseM ExprRef} (he : HandsExpr expr) : HandsExpr (braced expr) :=
  fun held => (idle_mark _ held).bind fun _ => (he held).bind fun _ => (idle_mark _ _).bind fun _ => .pure (.refl _)

/-- An expression is added whose parts are the last references in hand. -/
theorem threads_addExpr {x : Expr} (place : Location) {held : List Ref} :
    Threads (x.refs ++ held) (addExpr x place) fun e => .expr e :: held := .addExpr place (.refl _)

theorem hands_named {expr : ParseM ExprRef} (he : HandsExpr expr) : HandsExpr (named bound expr) := by
  refine fun held => (idle_identifier held).bind fun _ => (idle_peek held).bind fun _ => ?_
  split
  · exact (hands_arguments he held).bind fun args => threads_addExpr (x := .call _ args) _
  · refine (idle_skip held).bind fun _ => (idle_identifier held).bind fun _ => ?_
    exact (hands_arguments he held).bind fun args => threads_addExpr (x := .methodCall _ _ args) _
  · exact threads_addExpr (x := .name _) _

theorem threads_ifElse {expr : ParseM ExprRef} (he : HandsExpr expr) (place : Location) {held : List Ref} :
    Threads held (do
      let condition ← expr
      keyword .thenKw
      let onTrue ← braced expr
      keyword .elseKw
      let onFalse ← braced expr
      addExpr (.ifElse condition onTrue onFalse) place) fun e => .expr e :: held := by
  refine (he held).bind fun condition => (idle_keyword _ _).bind fun _ => (hands_braced he _).bind fun onTrue => ?_
  refine (idle_keyword _ _).bind fun _ => (hands_braced he _).bind fun onFalse => .addExpr place ?_
  exact (List.reverse_perm [.expr condition, .expr onTrue, .expr onFalse]).append_right held

theorem hands_primary {expr : ParseM ExprRef} (he : HandsExpr expr) : HandsExpr (primary bound expr) := by
  refine fun held => (idle_peekToken held).bind fun t => ?_
  generalize t.kind = kind
  cases kind with
  | number value => exact (idle_skip held).bind fun _ => threads_addExpr (x := .int value) _
  | identifier name => exact hands_named he held
  | endOfInput => exact .throw
  | mark m =>
    cases m with
    | minus =>
      refine (idle_skip held).bind fun _ => (idle_peek held).bind fun _ => ?_
      split
      · exact (idle_skip held).bind fun _ => threads_addExpr (x := .int _) _
      · exact hands_refuse _ held
    | parenOpen => exact hands_parenthesized he held
    | _ => exact .throw
  | keyword k =>
    cases k with
    | trueKw => exact (idle_skip held).bind fun _ => threads_addExpr (x := .bool true) _
    | falseKw => exact (idle_skip held).bind fun _ => threads_addExpr (x := .bool false) _
    | nullKw => exact (idle_skip held).bind fun _ => threads_addExpr (x := .null) _
    | ifKw => exact (idle_skip held).bind fun _ => threads_ifElse he _
    | printKw =>
      refine (idle_skip held).bind fun _ => (hands_parenthesized he held).bind fun operand => ?_
      exact threads_addExpr (x := .print operand) _
    | newKw =>
      refine (idle_skip held).bind fun _ => (idle_identifier held).bind fun _ => ?_
      exact (hands_arguments he held).bind fun args => threads_addExpr (x := .new _ args) _
    | _ => exact .throw

theorem hands_unary : ∀ n : Nat, HandsExpr (unary bound n)
  | 0 => hands_tooDeep
  | n + 1 => fun held => by
    refine (idle_peekToken held).bind fun _ => .ite ?_ (hands_primary (hands_logical (hands_unary n)).nested held)
    refine (idle_skip held).bind fun _ => ((hands_unary n).nested held).bind fun operand => ?_
    exact threads_addExpr (x := .not operand) _

theorem hands_expression : HandsExpr (expression bound) := (hands_logical (hands_unary maxDepth)).nested

/-! ## Declarations -/

/-- The reference to a declaration is in hand behind the step. -/
abbrev HandsDecl (p : ParseM DeclRef) : Prop := Hands (fun d => [.decl d]) p

theorem idle_atDeclaration : Idle atDeclaration := by
  refine fun held => (idle_peek held).bind fun _ => ?_
  split <;> exact .pure (.refl _)

theorem hands_declarationsFrom {declaration : ParseM DeclRef} (hd : HandsDecl declaration) :
    ∀ n : Nat, Hands (fun ds => ds.map .decl) (declarationsFrom declaration n)
  | 0 => fun _ => .pure (.refl _)
  | n + 1 => fun held => by
    refine (idle_atDeclaration held).bind fun _ => .ite ?_ (.pure (.refl _))
    refine (hd held).bind fun d => (hands_declarationsFrom hd n _).bind fun ds => .pure ?_
    exact List.perm_append_comm_assoc (ds.map .decl) [.decl d] held

theorem hands_declarations {declaration : ParseM DeclRef} (hd : HandsDecl declaration) :
    Hands (fun ds => ds.map .decl) (declarations bound declaration) :=
  fun held => (idle_atDeclaration held).bind fun _ => .ite (hands_declarationsFrom hd bound held) (hands_refuse _ held)

theorem hands_letBlock {declaration : ParseM DeclRef} (hd : HandsDecl declaration) :
    Hands (fun ds => ds.map .decl) (letBlock bound declaration) := by
  refine fun held => (idle_peek held).bind fun _ => .ite ?_ (.pure (.refl _))
  refine (idle_skip held).bind fun _ => (hands_declarations hd held).bind fun _ => ?_
  exact (idle_keyword _ _).bind fun _ => .pure (.refl _)

theorem hands_variableDecl : Hands (fun v => [.expr v.init]) (variableDecl bound) := by
  refine fun held => (idle_location held).bind fun _ => (idle_keyword _ held).bind fun _ => ?_
  refine (idle_identifier held).bind fun _ => (idle_mark _ held).bind fun _ => (idle_anyType _ held).bind fun _ => ?_
  refine (idle_mark _ held).bind fun _ => (hands_expression held).bind fun _ => (idle_mark _ _).bind fun _ => ?_
  exact .pure (.refl _)

theorem hands_function {declaration : ParseM DeclRef} (hd : HandsDecl declaration) :
    Hands Function.refs (function bound declaration) := by
  refine fun held => (idle_location held).bind fun _ => (idle_keyword _ held).bind fun _ => ?_
  refine (idle_identifier held).bind fun _ => (idle_mark _ held).bind fun _ => (idle_simpleType held).bind fun _ => ?_
  refine (idle_mark _ held).bind fun _ => (idle_commaSeparated (idle_typedName (idle_anyType _)) held).bind fun _ => ?_
  refine (idle_mark _ held).bind fun _ => ((hands_letBlock hd).nested held).bind fun locals => ?_
  refine (hands_expression _).bind fun body => (idle_mark _ _).bind fun _ => .pure ?_
  rw [Function.refs, List.append_assoc]
  exact List.perm_append_comm_assoc [.expr body] (locals.map .decl) held

theorem hands_methods {function : ParseM Function} (hf : Hands Function.refs function) :
    ∀ n : Nat, Hands (fun fs => fs.flatMap Function.refs) (methods function n)
  | 0 => fun _ => .pure (.refl _)
  | n + 1 => fun held => by
    refine (idle_peek held).bind fun _ => .ite ?_ (.pure (.refl _))
    refine (hf held).bind fun f => (hands_methods hf n _).bind fun fs => .pure ?_
    show (fs.flatMap Function.refs ++ (f.refs ++ held)).Perm ((f :: fs).flatMap Function.refs ++ held)
    rw [List.flatMap_cons, List.append_assoc]
    exact List.perm_append_comm_assoc ..

theorem hands_classDecl {declaration : ParseM DeclRef} (hd : HandsDecl declaration) :
    Hands (fun c => c.methods.flatMap Function.refs) (classDecl bound declaration) := by
  refine fun held => (idle_location held).bind fun _ => (idle_keyword _ held).bind fun _ => ?_
  refine (idle_identifier held).bind fun _ => (idle_mark _ held).bind fun _ => ?_
  refine (idle_commaSeparated (idle_typedName idle_simpleType) held).bind fun _ => (idle_mark _ held).bind fun _ => ?_
  refine (idle_mark _ held).bind fun _ => (hands_methods (hands_function hd) bound held).bind fun _ => ?_
  exact (idle_mark _ _).bind fun _ => .pure (.refl _)

theorem hands_declaration : ∀ n : Nat, HandsDecl (declaration bound n)
  | 0 => hands_tooDeep
  | n + 1 => fun held => by
    refine (idle_peek held).bind fun _ => ?_
    split
    · exact (hands_variableDecl held).bind fun v => .addDecl (x := .varDecl v) (.refl _)
    · exact (hands_function (hands_declaration n) held).bind fun f => .addDecl (x := .funDecl f) (.refl _)
    · exact (hands_classDecl (hands_declaration n) held).bind fun c => .addDecl (x := .classDecl c) (.refl _)
    · exact hands_refuse _ held

end Grammar

/-! ## What can be read on its own -/

namespace Parser

open Fool.Grammar

theorem hands_readExpression : HandsExpr Parser.expression := fun _ => Threads.bound.bind fun _ => hands_expression _

theorem hands_readDeclaration : HandsDecl Parser.declaration := fun _ => Threads.bound.bind fun _ => hands_declaration _ _

theorem hands_readDeclarations : Hands (fun ds => ds.map .decl) Parser.declarations :=
  fun _ => Threads.bound.bind fun _ => hands_declarations (hands_declaration _) _

theorem idle_readSimpleType : Idle Parser.simpleType := idle_simpleType

theorem idle_readAnyType : Idle Parser.anyType := fun _ => Threads.bound.bind fun _ => idle_anyType _ _

end Parser

end Fool
