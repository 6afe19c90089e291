import Fool.Codegen.Decls
import Fool.Proofs.Binding.Clean

/-!
# When there is code for a program

Code generation counts the nesting of expressions for itself, up to `Generator.maxNesting` levels, and for it a chain
of operators ends at a `>=`, whose operands it takes in exchanged order. `Gives P m` says that the step `m` succeeds
just if `P` holds, and fails with `nestingTooDeep` otherwise; it is closed under the ways in which steps are put
together. So a program that binds without a fault has code just if its whole expressions are not nested too deep
when every `>=` counts (`generate_ok_iff`); nothing else can go wrong.
-/

namespace Fool

namespace Generator

variable {α β : Type} {P Q : Prop}

/-- The step succeeds if `P` holds, and is refused for the depth of an expression otherwise. -/
def Gives (P : Prop) (m : GenM α) : Prop :=
  ∀ g, (P → ∃ a g', m g = .ok (a, g')) ∧ (¬P → m g = .error (.nestingTooDeep maxNesting))

theorem Gives.congr {m : GenM α} (h : Gives P m) (hiff : P ↔ Q) : Gives Q m := by
  intro g
  rw [← hiff]
  exact h g

theorem gives_pure (a : α) : Gives True (pure a : GenM α) := fun g => ⟨fun _ => ⟨a, g, rfl⟩, fun h => absurd trivial h⟩

theorem gives_bind {m : GenM α} {f : α → GenM β} (hm : Gives P m) (hf : ∀ a, Gives Q (f a)) :
    Gives (P ∧ Q) (m >>= f) := by
  intro g
  have hrun : (m >>= f) g = (m g >>= fun r => f r.1 r.2) := rfl
  by_cases hp : P
  · obtain ⟨a, g', hok⟩ := (hm g).1 hp
    rw [hrun, hok]
    exact ⟨fun h => (hf a g').1 h.2, fun h => (hf a g').2 fun hq => h ⟨hp, hq⟩⟩
  · rw [hrun, (hm g).2 hp]
    exact ⟨fun h => absurd h.1 hp, fun _ => rfl⟩

/-- A step that always succeeds in front of another. -/
theorem gives_after {m : GenM α} {f : α → GenM β} (hm : Gives True m) (hf : ∀ a, Gives P (f a)) :
    Gives P (m >>= f) :=
  (gives_bind hm hf).congr (by simp)

/-- A step that always succeeds behind another. -/
theorem gives_before {m : GenM α} {f : α → GenM β} (hm : Gives P m) (hf : ∀ a, Gives True (f a)) :
    Gives P (m >>= f) :=
  (gives_bind hm hf).congr (by simp)

theorem gives_mapM {P : α → Prop} {f : α → GenM β} : ∀ xs : List α, (∀ x ∈ xs, Gives (P x) (f x)) →
    Gives (∀ x ∈ xs, P x) (xs.mapM f)
  | [], _ => (gives_pure []).congr (by simp)
  | x :: xs, h => by
    have hx := h x List.mem_cons_self
    have hxs := gives_mapM xs fun y hy => h y (List.mem_cons_of_mem _ hy)
    rw [List.mapM_cons]
    exact (gives_bind hx fun y => gives_before hxs fun ys => gives_pure _).congr (by simp)

theorem gives_freshLabel : Gives True freshLabel := fun _ => ⟨fun _ => ⟨_, _, rfl⟩, fun h => absurd trivial h⟩

theorem gives_freshFunction : Gives True freshFunction := fun _ => ⟨fun _ => ⟨_, _, rfl⟩, fun h => absurd trivial h⟩

theorem gives_addUnit (unit : Code) : Gives True (addUnit unit) :=
  fun _ => ⟨fun _ => ⟨_, _, rfl⟩, fun h => absurd trivial h⟩

theorem gives_setInClass (inClass : Bool) : Gives True (setInClass inClass) :=
  fun _ => ⟨fun _ => ⟨_, _, rfl⟩, fun h => absurd trivial h⟩

theorem gives_get : Gives True (get : GenM Generator) := fun _ => ⟨fun _ => ⟨_, _, rfl⟩, fun h => absurd trivial h⟩

/-! ## Expressions -/

theorem gives_operatorTail (op : Operator) (right : Code) : Gives True (operatorTail op right) := by
  unfold operatorTail
  cases op
  all_goals first
    | exact gives_pure _
    | exact gives_after gives_freshLabel fun _ => gives_after gives_freshLabel fun _ => gives_pure _

theorem gives_operatorCode (op : Operator) (left right : Code) : Gives True (operatorCode op left right) := by
  unfold operatorCode
  split
  · exact gives_after (gives_operatorTail op left) fun _ => gives_pure _
  · exact gives_after (gives_operatorTail op right) fun _ => gives_pure _

variable {a : Arena} {t : Resolutions} {frameBase : Int64} {e : ExprRef}

theorem gives_frameCode (r : Resolution) : Gives True (frameCode frameBase r) := by
  refine gives_after gives_get fun g => ?_
  split <;> exact gives_pure _

theorem gives_targetCode (r : Resolution) : Gives True (targetCode frameBase r) := by
  refine gives_after (gives_frameCode r) fun frame => ?_
  split <;> exact gives_pure _

/-- The expression has what its code needs: a reference has a meaning, and the call of a method a method. -/
def Resolved (t : Resolutions) (e : ExprRef) : Expr → Prop
  | .name _ | .call .. | .new .. => (t.get? e).isSome
  | .methodCall .. => ∃ r m, t.get? e = some r ∧ r.method = some m
  | _ => True

theorem gives_resolution (h : (t.get? e).isSome) : Gives True (resolution t e) := by
  obtain ⟨r, hr⟩ := Option.isSome_iff_exists.1 h
  unfold resolution
  rw [hr]
  exact gives_pure r

/-- For code generation a chain ends at `>=`. -/
abbrev follows (op : Operator) : Bool := op ≠ .greaterEqual

theorem gives_headCode {n : Nat} {operand : ExprRef → GenM Code} (hpost : a.Postordered) (hlt : e.index < a.nodes.size)
    (h : ∀ e, e.index < a.nodes.size → Gives (a.Nested follows n e) (operand e)) :
    Gives (a.HeadNested follows n e) (headCode a operand e) := by
  unfold headCode
  split
  · rename_i op left right hx
    have hleft := h left (hpost.part_bounds hx List.mem_cons_self).2.2
    have hright := h right (hpost.part_bounds hx (List.mem_cons_of_mem left List.mem_cons_self)).2.2
    refine (gives_bind hleft fun left => gives_before hright fun right => gives_operatorCode op left right).congr ?_
    rw [Arena.headNested_binary hx]
  · rename_i hx
    refine (h e hlt).congr (Arena.headNested_of_not_binary fun op left right hop => hx op left right hop).symm

/-- A chain has code if its operands have. -/
theorem gives_chainCode {n : Nat} {operand : ExprRef → GenM Code} {op : Operator} {left right : ExprRef}
    (hpost : a.Postordered) (hx : a.expr? e = some (.binary op left right))
    (h : ∀ e, e.index < a.nodes.size → Gives (a.Nested follows n e) (operand e)) :
    Gives (a.Nested follows (n + 1) e) (chainCode a operand e) := by
  obtain ⟨hend, hall⟩ := hpost.leftSpine_lt follows (Arena.lt_size_of_expr? hx)
  have hhead := gives_headCode hpost hend h
  have htails : Gives (∀ q ∈ (a.leftSpine follows e).2, a.Nested follows n q.2)
      ((a.leftSpine follows e).2.mapM fun q => do operatorTail q.1 (← operand q.2)) :=
    gives_mapM _ fun q hq => gives_before (h q.2 (hall q hq)) fun right => gives_operatorTail q.1 right
  refine (gives_bind hhead fun head => gives_before htails fun tails => gives_pure _).congr ?_
  exact (hpost.nested_iff_leftSpine hx).symm

/-- **An expression has code just if it is not nested too deep,** when every reference has its meaning. -/
theorem gives_exprCode (hpost : a.Postordered) (hres : ∀ e x, a.expr? e = some x → Resolved t e x) :
    ∀ (n : Nat) (e : ExprRef), e.index < a.nodes.size → Gives (a.Nested follows n e) (exprCode a t frameBase n e) := by
  intro n
  induction n with
  | zero =>
    intro e _ g
    exact ⟨fun h => absurd h Arena.not_nested_zero, fun _ => rfl⟩
  | succ n ih =>
    intro e hlt
    obtain ⟨x, hx⟩ := Arena.exists_expr?_of_lt hlt
    have hres := hres e x hx
    have hpart : ∀ part ∈ x.parts, Gives (a.Nested follows n part) (exprCode a t frameBase n part) :=
      fun part hp => ih part (hpost.part_bounds hx hp).2.2
    by_cases hop : ∃ op left right, x = .binary op left right
    · obtain ⟨op, left, right, rfl⟩ := hop
      have hcode : exprCode a t frameBase (n + 1) e = chainCode a (exprCode a t frameBase n) e := by
        rw [exprCode, hx]
      rw [hcode]
      exact gives_chainCode hpost hx ih
    · simp only [not_exists] at hop
      refine Gives.congr ?_ (Arena.nested_node_iff hx hop).symm
      rw [exprCode, hx]
      cases x with
      | binary op left right => exact absurd rfl (hop op left right)
      | int v => exact (gives_pure _).congr (by simp [Expr.parts])
      | bool b => exact (gives_pure _).congr (by simp [Expr.parts])
      | null => exact (gives_pure _).congr (by simp [Expr.parts])
      | not operand =>
        refine (gives_after gives_freshLabel fun _ => gives_after gives_freshLabel fun _ =>
          gives_before (hpart operand List.mem_cons_self) fun _ => gives_pure _).congr ?_
        simp [Expr.parts]
      | ifElse condition onTrue onFalse =>
        refine (gives_after gives_freshLabel fun _ => gives_after gives_freshLabel fun _ =>
          gives_bind (hpart condition (by simp [Expr.parts])) fun _ =>
          gives_bind (hpart onFalse (by simp [Expr.parts])) fun _ =>
          gives_before (hpart onTrue (by simp [Expr.parts])) fun _ => gives_pure _).congr ?_
        simp [Expr.parts]
        tauto
      | print operand =>
        refine (gives_before (hpart operand List.mem_cons_self) fun _ => gives_pure _).congr ?_
        simp [Expr.parts]
      | name name =>
        refine (gives_after (gives_resolution hres) fun r =>
          gives_after (gives_frameCode r) fun _ => gives_pure _).congr ?_
        simp [Expr.parts]
      | call function args =>
        have hargs := gives_mapM args.reverse fun arg harg => hpart arg (List.mem_reverse.1 harg)
        refine (gives_after (gives_resolution hres) fun r => gives_before hargs fun _ =>
          gives_after (gives_targetCode r) fun _ => gives_pure _).congr ?_
        simp [Expr.parts]
      | methodCall receiver method args =>
        obtain ⟨r, m, hr, hm⟩ := hres
        have hargs := gives_mapM args.reverse fun arg harg => hpart arg (List.mem_reverse.1 harg)
        have hget : resolution t e = pure r := by rw [resolution, hr]
        simp only [hget, pure_bind, hm]
        refine (gives_before hargs fun _ => gives_after (gives_frameCode r) fun _ => gives_pure _).congr ?_
        simp [Expr.parts]
      | new name args =>
        have hargs := gives_mapM args fun arg harg => hpart arg harg
        refine (gives_after (gives_resolution hres) fun r => gives_before hargs fun _ => gives_pure _).congr ?_
        simp [Expr.parts]

/-! ## Declarations -/

/-- No whole expression of the declaration is nested too deep. -/
def Shallow (a : Arena) (d : DeclRef) : Prop := ∀ w, a.WholeOf d w → a.Nested follows maxNesting w

/-- No whole expression of the function is nested too deep. -/
def ShallowFunction (a : Arena) (f : Function) : Prop :=
  (∀ d ∈ f.locals, Shallow a d) ∧ a.Nested follows maxNesting f.body

theorem shallow_var {d : DeclRef} {v : Variable} (hx : a.decl? d = some (.varDecl v)) :
    Shallow a d ↔ a.Nested follows maxNesting v.init := by
  simp only [Shallow, Arena.wholeOf_var hx, forall_eq]

theorem shallow_fun {d : DeclRef} {f : Function} (hx : a.decl? d = some (.funDecl f)) :
    Shallow a d ↔ ShallowFunction a f := by
  simp only [Shallow, ShallowFunction, Arena.wholeOf_fun hx]
  constructor
  · exact fun h => ⟨fun d' hd w hw => h w (Or.inl ⟨d', hd, hw⟩), h _ (Or.inr rfl)⟩
  · rintro ⟨hlocals, hbody⟩ w (⟨d', hd, hw⟩ | rfl)
    · exact hlocals d' hd w hw
    · exact hbody

theorem shallow_class {d : DeclRef} {c : Class} (hx : a.decl? d = some (.classDecl c)) :
    Shallow a d ↔ ∀ m ∈ c.methods, ShallowFunction a m := by
  simp only [Shallow, ShallowFunction, Arena.wholeOf_class hx]
  constructor
  · exact fun h m hm => ⟨fun d' hd w hw => h w ⟨m, hm, Or.inl ⟨d', hd, hw⟩⟩, h _ ⟨m, hm, Or.inr rfl⟩⟩
  · rintro h w ⟨m, hm, ⟨d', hd, hw⟩ | rfl⟩
    · exact (h m hm).1 d' hd w hw
    · exact (h m hm).2

theorem gives_wholeCode (hpost : a.Postordered) (hres : ∀ e x, a.expr? e = some x → Resolved t e x) {k : Nat} {s q : Pos}
    (hfill : a.Fill k s [e] q) : Gives (a.Nested follows maxNesting e) (wholeCode a t frameBase e) :=
  gives_exprCode hpost hres maxNesting e hfill.1.2.1

variable (frameBase) in
theorem gives_addFunction (hpost : a.Postordered) (hres : ∀ e x, a.expr? e = some x → Resolved t e x) {k : Nat}
    {s q : Pos} {L : Pos → DeclRef → Pos → Prop} {localCode : DeclRef → GenM Code} {f : Function}
    (hat : a.FunctionAt k L s f q) (h : ∀ s d q, L s d q → Gives (Shallow a d) (localCode d)) :
    Gives (ShallowFunction a f) (addFunction a t frameBase localCode f) := by
  obtain ⟨m, hlocals, hbody⟩ := hat
  have hall : Gives (∀ d ∈ f.locals, Shallow a d) (f.locals.mapM localCode) := by
    refine gives_mapM f.locals fun d hd => ?_
    obtain ⟨s', q', hat⟩ := hlocals.imp_mem hd
    exact h s' d q' hat
  have hunit : ∀ entry, Gives (ShallowFunction a f) (functionUnit a t frameBase localCode entry f) := fun entry =>
    gives_bind hall fun _ => gives_before (gives_wholeCode hpost hres hbody) fun _ => gives_pure _
  exact gives_after gives_freshFunction fun entry =>
    gives_before (hunit entry) fun unit => gives_after (gives_addUnit unit) fun _ => gives_pure _

/-- **A declaration has code just if none of its whole expressions is nested too deep.** -/
theorem gives_declCode (hpost : a.Postordered) (hres : ∀ e x, a.expr? e = some x → Resolved t e x) {k : Nat} :
    ∀ (n : Nat) (s : Pos) (d : DeclRef) (q : Pos), a.DeclAt k n s d q →
      Gives (Shallow a d) (declCode a t frameBase n d) := by
  intro n
  induction n with
  | zero => intro _ _ _ hd; exact hd.elim
  | succ n ih =>
    intro s d q hd
    obtain ⟨x, hx⟩ := hd.exists_decl?
    rw [declCode, hx]
    cases x with
    | varDecl v => exact (gives_wholeCode hpost hres (hd.var hx)).congr (shallow_var hx).symm
    | funDecl f =>
      refine Gives.congr ?_ (shallow_fun hx).symm
      exact gives_before (gives_addFunction frameBase hpost hres (hd.function hx) ih) fun _ => gives_pure _
    | classDecl c =>
      refine Gives.congr ?_ (shallow_class hx).symm
      have hmethods := gives_mapM c.methods fun m hm => by
        obtain ⟨s', q', hat⟩ := (hd.methods hx).imp_mem hm
        exact gives_addFunction frameBase hpost hres hat ih
      exact gives_after (gives_setInClass true) fun _ => gives_before hmethods fun _ =>
        gives_after (gives_setInClass false) fun _ => gives_pure _

variable (frameBase) in
theorem gives_mainCode {p : Program} (h : p.Placed) (hres : ∀ e x, p.arena.expr? e = some x → Resolved t e x) :
    Gives (∀ w, p.Whole w → p.arena.Nested follows maxNesting w) (p.mainCode t frameBase) := by
  obtain ⟨m, hrow, hbody⟩ := h.row
  have hdecls : Gives (∀ d ∈ p.declarations, Shallow p.arena d)
      (p.declarations.mapM (declCode p.arena t frameBase (p.arena.decls.size + 1))) := by
    refine gives_mapM p.declarations fun d hd => ?_
    obtain ⟨s', q', hat⟩ := hrow.imp_mem hd
    exact gives_declCode h.postordered hres _ s' d q' hat
  refine (gives_bind hdecls fun _ => gives_before (gives_wholeCode h.postordered hres hbody) fun _ =>
    gives_pure _).congr ?_
  constructor
  · rintro ⟨hall, hb⟩ w (rfl | ⟨d, hd, hw⟩)
    · exact hb
    · exact hall d hd w hw
  · exact fun h => ⟨fun d hd w hw => h w (Or.inr ⟨d, hd, hw⟩), h _ (Or.inl rfl)⟩

end Generator

/-! ## Programs -/

open Generator

/-- In a program without faults every reference has what its code needs. -/
theorem Binder.Faultless.resolved {p : Program} {names : Names} (h : Faultless p names) (e : ExprRef) (x : Expr)
    (hx : p.arena.expr? e = some x) : Resolved (p.bind names).resolutions e x := by
  obtain ⟨Γ, hs⟩ := h.exists_site (Arena.lt_size_of_expr? hx)
  cases x with
  | name name =>
    obtain ⟨entry, -, hget, -⟩ := h.name hs hx
    exact Option.isSome_iff_exists.2 ⟨_, hget⟩
  | call function args =>
    obtain ⟨entry, -, hget⟩ := h.call hs hx
    exact Option.isSome_iff_exists.2 ⟨_, hget⟩
  | methodCall receiver method args =>
    obtain ⟨entry, m, -, -, -, -, -, -, -, -, -, -, -, hget⟩ := h.methodCall hs hx
    exact ⟨_, m, hget, rfl⟩
  | new name args =>
    obtain ⟨-, entry, -, -, -, hget⟩ := h.new hs hx
    exact Option.isSome_iff_exists.2 ⟨_, hget⟩
  | _ => trivial

/-- The code of a program without faults is its main part and the units of its functions. -/
theorem generate_eq {p : Program} {bindings : Bindings} (h : bindings.errors = []) (frameBase : Int64) :
    p.generate bindings frameBase =
      (p.mainCode bindings.resolutions frameBase .start).map fun r => r.1 ++ r.2.units.flatten := by
  unfold Program.generate
  rw [h]
  simp only [List.isEmpty_nil, if_true]
  show (p.mainCode bindings.resolutions frameBase .start >>= _) = _
  cases p.mainCode bindings.resolutions frameBase .start <;> rfl

/-- A program without faults has code if it has no `>=`, however long its chains of operators are. -/
theorem generate_ok_of_no_greaterEqual {p : Program} {names : Names} (h : Binder.Faultless p names)
    (hop : ∀ e left right, p.arena.expr? e ≠ some (.binary .greaterEqual left right)) (frameBase : Int64) :
    ∃ code, p.generate (p.bind names) frameBase = .ok code := by
  obtain ⟨hok, -⟩ := gives_mainCode frameBase h.placed h.resolved Generator.start
  obtain ⟨code, g, hrun⟩ := hok fun w hw =>
    ((h.placed.nested hw).mono Binder.nestingBound_le).of_follow fun e op left right hx _ => by
      cases op with
      | greaterEqual => exact absurd hx (hop e left right)
      | _ => rfl
  exact ⟨_, by rw [generate_eq h.errors, hrun]; rfl⟩

/-- **A program that binds without a fault has code just if none of its whole expressions is nested too deep,** when a
`>=` ends a chain; any other fault of code generation is excluded. -/
theorem generate_ok_iff {text : String} {names names' : Names} {p : Program}
    (h : Program.parse text names = (.ok p, names')) (ns : Names) (hclean : (p.bind ns).errors = [])
    (frameBase : Int64) :
    ((∃ code, p.generate (p.bind ns) frameBase = .ok code) ↔
      ∀ w, p.Whole w → p.arena.Nested (fun op => op ≠ .greaterEqual) 512 w) ∧
    ∀ err, p.generate (p.bind ns) frameBase = .error err → err = .nestingTooDeep 512 := by
  have hfaultless : Binder.Faultless p ns := ⟨placed_of_parse h, hclean⟩
  obtain ⟨hok, herr⟩ := gives_mainCode frameBase hfaultless.placed hfaultless.resolved Generator.start
  rw [generate_eq hclean]
  by_cases hshallow : ∀ w, p.Whole w → p.arena.Nested follows maxNesting w
  · obtain ⟨code, g, hrun⟩ := hok hshallow
    rw [hrun]
    exact ⟨⟨fun _ => hshallow, fun _ => ⟨_, rfl⟩⟩, fun err he => by cases he⟩
  · rw [herr hshallow]
    refine ⟨⟨?_, fun hall => absurd hall hshallow⟩, fun err he => by cases he; rfl⟩
    rintro ⟨code, hcode⟩
    cases hcode

/-- A function that gives its argument back, and its call, have code. -/
theorem generate_ok_identityCall : (∃ code, identityCall.generate (identityCall.bind .empty) 10000 = .ok code) ∧
    ∀ w, identityCall.Whole w → identityCall.arena.Nested (fun op => op ≠ .greaterEqual) 512 w := by
  have hclean : (identityCall.bind .empty).errors = [] := by rfl
  have hcode : ∃ code, identityCall.generate (identityCall.bind .empty) 10000 = .ok code := ⟨_, by rfl⟩
  exact ⟨hcode, (generate_ok_iff parse_identityCall .empty hclean 10000).1.1 hcode⟩

end Fool
