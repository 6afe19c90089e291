import Fool.Proofs.Binding.Counted
import Fool.Proofs.Binding.Elsewhere
import Fool.Proofs.Renaming.Meaning

/-!
# Binding leaves no trace in the scopes

Whatever binding comes to, it leaves behind no more than it has to: an expression its meanings and faults, a declaration
its name in the innermost scope and a class in the table (`bind_traceless`). So what is inside a function matters nowhere
else. Only an expression that is reached twice, as it is in no program that was read, loses the meaning that it had
(`meaning_replaced`). The counter that says how deep an expression is nested is given back as well, by expressions and by
declarations.
-/

namespace Fool

open Syntax Binder

/-- Elsewhere two texts mean the same and have the same faults, if they differ inside one function. -/
theorem bind_written {text text' : String} {base base' names names' : Names} {p p' : Program} {t t' : ProgramTree}
    {g g' : FunctionTree} {lo : Nat} (h : Program.parse text base = (.ok p, names))
    (h' : Program.parse text' base' = (.ok p', names')) (ht : t.WrittenAs text) (ht' : t'.WrittenAs text')
    (hdiffers : ProgramTree.DiffersIn g g' lo t t') :
    (∀ read e e', Corresponds lo g.count g'.count e e' →
      (p'.bind names').meaning? names' read e' = (p.bind names).meaning? names read e) ∧
    Besides g.inside g'.inside (p.bind names).errors (p'.bind names').errors ∧
    (Position.bytes text.toList + 1 < UInt32.size → Position.bytes text'.toList + 1 < UInt32.size →
      outside g'.inside (p'.bind names').errors = outside g.inside (p.bind names).errors) := by
  obtain ⟨q, q', u, v, v', hq, hq'⟩ := Program.parse_together h h'
  obtain ⟨hsame, hbesides, houtside⟩ := bind_elsewhere (placed_of_parse hq) (placed_of_parse hq') (ht.is hq) (ht'.is hq')
    hdiffers
  obtain ⟨hmeaning, hfaults⟩ := Program.meaning_of_parse hq h
  obtain ⟨hmeaning', hfaults'⟩ := Program.meaning_of_parse hq' h'
  refine ⟨fun read e e' he => ?_, ?_, fun hbytes hbytes' => ?_⟩
  · rw [hmeaning, hmeaning', Bindings.meaning?, Bindings.meaning?, hsame e e' he]
  · rwa [hfaults, hfaults']
  · rw [hfaults, hfaults', houtside (ht.nodup hq hbytes) (ht'.nodup hq' hbytes')]

/-! ## An expression that is reached twice -/

/-- The body of the function `f`, which is the variable `x`, is the body of the program as well. -/
def sharedUse : Program where
  arena := ⟨#[⟨.int 1, none⟩, ⟨.name ⟨0⟩, none⟩],
    #[.varDecl ⟨⟨0⟩, .int, ⟨0⟩, none⟩, .funDecl ⟨⟨1⟩, .int, [], [], ⟨1⟩, none⟩]⟩
  declarations := [⟨0⟩, ⟨1⟩]
  body := ⟨1⟩

theorem ends_sharedUse (names : Names) : Ends sharedUse names := by
  intro n d b _ hd
  obtain ⟨d', ⟨f, hf, hlocal⟩, _⟩ := Relation.TransGen.head'_iff.1 hd
  obtain ⟨hlt, hget⟩ := Array.getElem?_eq_some_iff.1 hf
  -- Neither declaration has local ones.
  match d, hlt with
  | ⟨0⟩, _ => cases hget
  | ⟨1⟩, _ =>
    cases hget
    cases hlocal

/-- **A meaning is replaced,** although binding ends. When it comes to the body of the program, the use of `x` has the
meaning that it has inside `f`, and behind the body another one. -/
theorem meaning_replaced : Ends sharedUse ⟨#["x", "f"]⟩ ∧
    ∃ b r r', Reached sharedUse ⟨#["x", "f"]⟩ (.expr maxNesting sharedUse.body) b ∧
      b.resolutions.get? ⟨1⟩ = some r ∧
      (expr sharedUse.arena ⟨#["x", "f"]⟩ maxNesting sharedUse.body b).2.resolutions.get? ⟨1⟩ = some r' ∧
      r.callDepth = 1 ∧ r'.callDepth = 0 := by
  refine ⟨ends_sharedUse _, _, ⟨⟨.var, 0, -2, .int⟩, 1, none⟩, ⟨⟨.var, 0, -2, .int⟩, 0, none⟩, .body, ?_, ?_, rfl, rfl⟩
  · rfl
  · rfl

/-! ## A call of a function -/

/-- The program of `let fun f:int()1; in f();`. -/
def constantBody : Program where
  arena := ⟨#[⟨.int 1, some ⟨1, 16, 15⟩⟩, ⟨.call ⟨0⟩ [], some ⟨1, 22, 21⟩⟩],
    #[.funDecl ⟨⟨0⟩, .int, [], [], ⟨0⟩, some ⟨1, 5, 4⟩⟩]⟩
  declarations := [⟨0⟩]
  body := ⟨1⟩

/-- The program of `let fun f:int()!x; in f();`. -/
def unresolvedBody : Program where
  arena := ⟨#[⟨.name ⟨1⟩, some ⟨1, 17, 16⟩⟩, ⟨.not ⟨0⟩, some ⟨1, 16, 15⟩⟩, ⟨.call ⟨0⟩ [], some ⟨1, 23, 22⟩⟩],
    #[.funDecl ⟨⟨0⟩, .int, [], [], ⟨1⟩, some ⟨1, 5, 4⟩⟩]⟩
  declarations := [⟨0⟩]
  body := ⟨2⟩

/-- The function of such a program. -/
def calledFunction (body : Tree) : FunctionTree := .mk "f" .int [] [] body ⟨1, 5, 4⟩

/-- Its call is the program. -/
def callOf (body : Tree) (place : Location) : ProgramTree :=
  ⟨[.function (calledFunction body)], .node (.call "f") place []⟩

/-- The tokens of such a text in front of the body of the function. -/
def callHead : List Token :=
  [⟨.keyword .letKw, ⟨1, 1, 0⟩, 3⟩, ⟨.keyword .funKw, ⟨1, 5, 4⟩, 7⟩, ⟨.identifier "f", ⟨1, 9, 8⟩, 9⟩,
    ⟨.mark .colon, ⟨1, 10, 9⟩, 10⟩, ⟨.keyword .intKw, ⟨1, 11, 10⟩, 13⟩, ⟨.mark .parenOpen, ⟨1, 14, 13⟩, 14⟩,
    ⟨.mark .parenClose, ⟨1, 15, 14⟩, 15⟩]

/-- The place at a column of the first line, where all characters are of one byte. -/
def firstLine (column : Nat) : Position := ⟨1, .ofNat column, column - 1⟩

/-- The tokens behind a body that ends in front of column `c`. -/
def callTail (c : Nat) : List Token :=
  [⟨.mark .semicolon, firstLine c, c⟩, ⟨.keyword .inKw, firstLine (c + 2), c + 3⟩,
    ⟨.identifier "f", firstLine (c + 5), c + 5⟩, ⟨.mark .parenOpen, firstLine (c + 6), c + 6⟩,
    ⟨.mark .parenClose, firstLine (c + 7), c + 7⟩, ⟨.mark .semicolon, firstLine (c + 8), c + 8⟩,
    ⟨.endOfInput, firstLine (c + 9), c + 8⟩]

theorem written_callOf {text : String} {c : Nat} {body : Tree} {es : List Token} (hbody : Expression 2 es body)
    (htokens : (Cursor.ofString text).readAll = (callHead ++ es ++ callTail c).map .ok) :
    (callOf body (firstLine (c + 5)).location).WrittenAs text := by
  have hfun : Declaration 2 (⟨.keyword .funKw, ⟨1, 5, 4⟩, 7⟩ :: ⟨.identifier "f", ⟨1, 9, 8⟩, 9⟩ ::
      ⟨.mark .colon, ⟨1, 10, 9⟩, 10⟩ :: ([⟨.keyword .intKw, ⟨1, 11, 10⟩, 13⟩] ++ ⟨.mark .parenOpen, ⟨1, 14, 13⟩, 14⟩ ::
      ([] ++ ⟨.mark .parenClose, ⟨1, 15, 14⟩, 15⟩ :: ([] ++ (es ++ [⟨.mark .semicolon, firstLine c, c⟩])))))
      (.function (calledFunction body)) :=
    .function (.mk rfl rfl rfl (.int rfl) rfl .none rfl .none hbody rfl)
  have hcall : Expression 2
      (⟨.identifier "f", firstLine (c + 5), c + 5⟩ :: ⟨.mark .parenOpen, firstLine (c + 6), c + 6⟩ ::
      ([] ++ [⟨.mark .parenClose, firstLine (c + 7), c + 7⟩])) (.node (.call "f") (firstLine (c + 5)).location []) :=
    .operand (.operand (.operand (.operand (.primary (.call rfl (.mk rfl .none rfl))))))
  have hlet : (⟨.keyword .letKw, ⟨1, 1, 0⟩, 3⟩ : Token).kind = .keyword .letKw := rfl
  have hin : (⟨.keyword .inKw, firstLine (c + 2), c + 3⟩ : Token).kind = .keyword .inKw := rfl
  have hsemicolon : (⟨.mark .semicolon, firstLine (c + 8), c + 8⟩ : Token).kind = .mark .semicolon := rfl
  have hstop : (⟨.endOfInput, firstLine (c + 9), c + 8⟩ : Token).kind = .endOfInput := rfl
  have hwhole := Whole.mk (.some hlet hfun .nil hin) hcall hsemicolon hstop
  refine ⟨2, _, htokens, ?_⟩
  simpa [callOf, callHead, callTail, List.append_assoc] using hwhole

theorem differs_callOf (body body' : Tree) (place place' : Location) :
    ProgramTree.DiffersIn (calledFunction body) (calledFunction body') 0 (callOf body place) (callOf body' place') := by
  have hfun : DeclTree.DiffersIn (calledFunction body) (calledFunction body') 0 (.function (calledFunction body))
      (.function (calledFunction body')) := .function (.here ⟨rfl, rfl, .nil⟩)
  have hnone : DeclTree.AllAlike [] [] := trivial
  have hcall : (Syntax.Tree.node (.call "f") place []).Alike (.node (.call "f") place' []) := ⟨rfl, trivial⟩
  exact .mk hnone hfun hnone hcall

/-! ## No trace -/

/-- **Binding leaves no trace in the scopes.** Whatever is wrong, an expression is bound without a change to the scopes, the
classes and the class that is being read; faults are appended, and only expressions of the subtree get a meaning. Where
binding ends, a declaration comes to its outcome in every state that is reached: no scope but the innermost changes, and
that one by the declared name at most; the class that is being read is the same; and the table gets no class but the
declared one. The counter of nesting is the same behind an expression and behind a declaration, wherever it stands, and what
is done with the counter is what is done with the levels that it leaves. In a program that was read no meaning is ever
replaced. And two programs that differ in the local declarations and the body of one function or method have the same
meanings and the same faults everywhere else; where places can be told apart, these are the faults at other places. -/
theorem bind_traceless :
    (∀ (a : Arena) (names : Names) (n : Nat) (e : ExprRef) (b : Binder),
      Frames (a.Below e) b (expr a names n e b).2) ∧
    (∀ (a : Arena) (names : Names) (n k : Nat) (e : ExprRef) (b : Binder), maxNesting - k < n →
      Counted.expr a names n e k b = (((), k), (expr a names (maxNesting - k) e b).2)) ∧
    (∀ (a : Arena) (names : Names) (n k : Nat) (d : DeclRef) (b : Binder), (Counted.decl a names n d k b).1.2 = k ∧
      Counted.decl a names n d 0 b = (((), 0), (decl a names n d b).2)) ∧
    (∀ (p : Program) (names : Names) (b : Binder),
      Counted.program names p 0 b = (((), 0), (p.bindGlobals names b).2)) ∧
    (∀ (p : Program) (names : Names), Ends p names → ∀ (n : Nat) (d : DeclRef) (b : Binder),
      Reached p names (.decl n d) b →
        Outcome p.arena d b (decl p.arena names n d b).2 ∧
        b.scopes.Within (decl p.arena names n d b).2.scopes ∧
        (decl p.arena names n d b).2.currentClass = b.currentClass) ∧
    (∀ (text : String) (base names : Names) (p : Program), Program.parse text base = (.ok p, names) →
      ∀ (names : Names) (task : Task) (b : Binder), Reached p names task b → ∀ e : ExprRef,
        (b.resolutions.get? e).isSome → (task.run p.arena names b).2.resolutions.get? e = b.resolutions.get? e) ∧
    (∀ (text text' : String) (base base' names names' : Names) (p p' : Program) (t t' : ProgramTree)
      (g g' : FunctionTree) (lo : Nat), Program.parse text base = (.ok p, names) →
      Program.parse text' base' = (.ok p', names') → t.WrittenAs text → t'.WrittenAs text' →
      ProgramTree.DiffersIn g g' lo t t' →
        (∀ read e e', Corresponds lo g.count g'.count e e' →
          (p'.bind names').meaning? names' read e' = (p.bind names).meaning? names read e) ∧
        Besides g.inside g'.inside (p.bind names).errors (p'.bind names').errors ∧
        (Position.bytes text.toList + 1 < UInt32.size → Position.bytes text'.toList + 1 < UInt32.size →
          outside g'.inside (p'.bind names').errors = outside g.inside (p.bind names).errors)) := by
  refine ⟨fun a names n e b => expr_frames a names n e b, fun a names n k e b hn => Counted.keeps_expr a names n e k hn b,
    fun a names n k d b => ⟨?_, ?_⟩, fun p names b => ?_, fun p names hends n d b h => ?_, ?_, ?_⟩
  · exact (Counted.matches_decl a names n d).restores k b
  · exact (Counted.matches_decl a names n d).eq_of_zero b
  · exact (Counted.matches_program names p).eq_of_zero b
  · obtain ⟨n, rfl⟩ := Nat.exists_eq_succ_of_ne_zero (h.level hends)
    exact ⟨decl_outcome n d b h.ready.nonempty, h.ready.stays (n + 1) d⟩
  · exact fun text base _ p hparse names task b h e hb => h.adds_only (placed_of_parse hparse) hb
  · exact fun _ _ _ _ _ _ _ _ _ _ _ _ _ h h' ht ht' hdiffers => bind_written h h' ht ht' hdiffers

/-- What is in the function does not matter to its call: neither what the call means nor what is wrong with it. -/
theorem bind_traceless_call :
    (∀ read, (unresolvedBody.bind ⟨#["f", "x"]⟩).meaning? ⟨#["f", "x"]⟩ read ⟨2⟩ =
      (constantBody.bind ⟨#["f"]⟩).meaning? ⟨#["f"]⟩ read ⟨1⟩) ∧
    outside [⟨1, 17, 16⟩] (unresolvedBody.bind ⟨#["f", "x"]⟩).errors =
      outside [] (constantBody.bind ⟨#["f"]⟩).errors := by
  have hparse : Program.parse "let fun f:int()1; in f();" .empty = (.ok constantBody, ⟨#["f"]⟩) := by decide +kernel
  have hparse' : Program.parse "let fun f:int()!x; in f();" .empty = (.ok unresolvedBody, ⟨#["f", "x"]⟩) := by
    decide +kernel
  have hone : Expression 2 [⟨.number 1, ⟨1, 16, 15⟩, 16⟩] (.node (.int 1) ⟨1, 16, 15⟩ []) :=
    .operand (.operand (.operand (.operand (.primary (.number rfl)))))
  have hnot : Expression 2 [⟨.mark .not, ⟨1, 16, 15⟩, 16⟩, ⟨.identifier "x", ⟨1, 17, 16⟩, 17⟩]
      (.node .not ⟨1, 16, 15⟩ [.node (.name "x") ⟨1, 17, 16⟩ []]) :=
    .operand (.operand (.operand (.operand (.not rfl (.primary (.name rfl))))))
  have ht : (callOf _ ⟨1, 22, 21⟩).WrittenAs "let fun f:int()1; in f();" :=
    written_callOf (c := 17) hone (by decide +kernel)
  have ht' : (callOf _ ⟨1, 23, 22⟩).WrittenAs "let fun f:int()!x; in f();" :=
    written_callOf (c := 18) hnot (by decide +kernel)
  have htraceless := bind_traceless.2.2.2.2.2.2 _ _ _ _ _ _ _ _ _ _ _ _ _ hparse hparse' ht ht'
    (differs_callOf _ _ _ _)
  exact ⟨fun read => htraceless.1 read ⟨1⟩ ⟨2⟩ (.inr ⟨0, rfl, rfl⟩), htraceless.2.2 (by decide) (by decide)⟩

end Fool
