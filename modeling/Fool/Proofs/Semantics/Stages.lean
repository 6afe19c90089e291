import Mathlib.Data.List.DropRight
import Mathlib.Logic.Relation
import Fool.Proofs.Semantics.Evaluator

/-!
# Stages of an evaluation

A `Stage` is one point of an evaluation: what is visible there, what there is besides, and what is evaluated next.
`Leads` goes from a stage to those at which parts of it begin and to the one behind it; only what has been evaluated
without a fault lies behind a stage. The `chain` of a stage says which frame or object each scope of its surroundings
is: that of the innermost scope comes first. It is the static chain, for a call begins with the chain of the
surroundings of what is called (`surround`), whoever calls it.

An evaluation that is ill-formed comes to a stage at which an operation is refused its operands
(`strays_of_illFormed`).
-/

namespace Fool

/-- The parts of an expression that are always evaluated, in their order. -/
def Expr.operands : Expr → List ExprRef
  | int _ | bool _ | null | name _ => []
  | binary .or left _ => [left]
  | binary .greaterEqual left right => [right, left]
  | binary _ left right => [left, right]
  | not operand | print operand => [operand]
  | ifElse condition _ _ => [condition]
  | call _ args | methodCall _ _ args => args.reverse
  | new _ args => args

/-- How many words lie below the operands: a call keeps the frame of the caller there. -/
def Expr.saved : Expr → Nat
  | call .. | methodCall .. => 1
  | _ => 0

/-- The part that is evaluated behind the operand, if that is the number. -/
def Expr.branch? (v : Int64) : Expr → Option ExprRef
  | binary .or _ right => if v = 1 then none else some right
  | ifElse _ onTrue onFalse => some (if v = 1 then onTrue else onFalse)
  | _ => none

namespace Reference

/-- What a scope is while a program runs. A frame is known by the number of words on the stack when it is entered, an
object by its number. -/
inductive Anchor where
  | frame (height : Nat)
  | object (id : Nat)
deriving DecidableEq

/-- How many scopes there are around the outermost one. -/
def Env.scopes : Env → Nat
  | top => 0
  | value _ _ _ _ outer | func _ outer | cls _ outer => outer.scopes
  | frame outer | object _ _ _ outer => outer.scopes + 1

/-- The scopes of surroundings that lie within, or begin with an object behind those of a class. -/
def surround (chain : List Anchor) : Env → List Anchor
  | .object id _ _ outer => .object id :: chain.rtake (outer.scopes + 1)
  | env => chain.rtake (env.scopes + 1)

/-- What is evaluated next, or has just been. -/
inductive Task where
  | expr (e : ExprRef)
  | value (e : ExprRef) (v : Value)
  | block (ds : List DeclRef) (body : ExprRef)

/-- A point of an evaluation. The height is how many words lie on the stack of the machine. -/
structure Stage where
  fuel : Nat
  env : Env
  chain : List Anchor
  height : Nat
  world : World
  task : Task

/-- What a call runs, if the expression is one. -/
def target? (env : Env) : Expr → Option (EvalM (Function × Env))
  | .call function _ => some (callee env function)
  | .methodCall receiver method _ => some (methodCallee env receiver method)
  | _ => none

section

variable (arena : Arena)

/-- **From a stage to the next ones.** -/
inductive Leads : Stage → Stage → Prop
  /-- An operand is evaluated behind those before it. -/
  | operand {n h : Nat} {env : Env} {chain : List Anchor} {w w' : World} {e part : ExprRef} {x : Expr}
      {done rest : List ExprRef} {vs : List Value} : arena.expr? e = some x → x.operands = done ++ part :: rest →
      done.mapM (expr arena n env) w = .ok vs w' →
      Leads ⟨n + 1, env, chain, h, w, .expr e⟩ ⟨n, env, chain, h + x.saved + done.length, w', .expr part⟩
  /-- The right operand of `||`, or one of the branches. -/
  | branch {n h : Nat} {env : Env} {chain : List Anchor} {w w' : World} {e part : ExprRef} {x : Expr} {v : Int64} :
      arena.expr? e = some x → x.operands.mapM (expr arena n env) w = .ok [.int v] w' → x.branch? v = some part →
      Leads ⟨n + 1, env, chain, h, w, .expr e⟩ ⟨n, env, chain, h, w', .expr part⟩
  /-- What is called is entered. Its frame lies behind the access link; the address to return to is put on top. -/
  | enter {n h : Nat} {env outer : Env} {chain : List Anchor} {w w₁ w₂ : World} {e : ExprRef} {x : Expr}
      {vs : List Value} {target : EvalM (Function × Env)} {f : Function} : arena.expr? e = some x →
      target? env x = some target → x.operands.mapM (expr arena n env) w = .ok vs w₁ → target w₁ = .ok (f, outer) w₂ →
      vs.length = f.params.length →
      Leads ⟨n + 1, env, chain, h, w, .expr e⟩
        ⟨n, bindParams (.frame outer) (f.params.zip vs.reverse), .frame (h + vs.length + 2) :: surround chain outer,
          h + vs.length + 3, w₂, .block f.locals f.body⟩
  /-- The initial value of a variable is evaluated. -/
  | init {n h : Nat} {env : Env} {chain : List Anchor} {w : World} {d : DeclRef} {ds : List DeclRef} {body : ExprRef}
      {v : Variable} : arena.decl? d = some (.varDecl v) →
      Leads ⟨n, env, chain, h, w, .block (d :: ds) body⟩ ⟨n, env, chain, h, w, .expr v.init⟩
  /-- Behind a declaration come the others. -/
  | declared {n h : Nat} {env env' : Env} {chain : List Anchor} {w w' : World} {d : DeclRef} {ds : List DeclRef}
      {body : ExprRef} : declare arena (expr arena n) env d w = .ok env' w' →
      Leads ⟨n, env, chain, h, w, .block (d :: ds) body⟩ ⟨n, env', chain, h + 1, w', .block ds body⟩
  /-- Behind the last declaration comes the body. -/
  | body {n h : Nat} {env : Env} {chain : List Anchor} {w : World} {body : ExprRef} :
      Leads ⟨n, env, chain, h, w, .block [] body⟩ ⟨n, env, chain, h, w, .expr body⟩
  /-- An expression has a value. -/
  | value {n h : Nat} {env : Env} {chain : List Anchor} {w w' : World} {e : ExprRef} {v : Value} :
      expr arena n env e w = .ok v w' →
      Leads ⟨n, env, chain, h, w, .expr e⟩ ⟨n, env, chain, h, w', .value e v⟩

end

/-- Where the evaluation of a program begins: a cell that is not used lies above its declarations, if there are any. -/
def firstStage (p : Program) (n : Nat) : Stage :=
  ⟨n, .top, [.frame 0], if p.declarations.isEmpty then 0 else 1, ⟨[], []⟩, .block p.declarations p.body⟩

/-- The stage belongs to an evaluation of the program. -/
def Reached (p : Program) (S : Stage) : Prop := ∃ n, Relation.ReflTransGen (Leads p.arena) (firstStage p n) S

/-! ## What is ill-formed -/

section

variable {α β : Type}

/-- The step is ill-formed. -/
def IllFormed (m : EvalM α) (w : World) : Prop := ∃ w', m w = .error .illFormed w'

/-- A function takes so many arguments. -/
def fits (values : List Value) (q : Function × Env) : EvalM Unit :=
  if values.length = q.1.params.length then return else throw .illFormed

/-- The operation of an expression does not take the values of its operands. -/
def Refused (env : Env) (x : Expr) (values : List Value) (w : World) : Prop :=
  match x, values with
  | .binary .or _ _, [v] | .not _, [v] | .print _, [v] | .ifElse _ _ _, [v] => IllFormed (number v) w
  | .binary .greaterEqual _ _, [y, x] => IllFormed (operate .greaterEqual x y) w
  | .binary op _ _, [x, y] => IllFormed (operate op x y) w
  | .name name, [] => IllFormed (nameValue env name) w
  | .call function _, values => IllFormed (callee env function >>= fits values) w
  | .methodCall receiver method _, values => IllFormed (methodCallee env receiver method >>= fits values) w
  | .new name _, values => IllFormed (construct env name values) w
  | _, _ => False

variable (arena : Arena)

/-- An operation of the first stage is refused its operands, the last of which has its value at the second one. -/
inductive Fails : Stage → Stage → Prop
  | bare {n h : Nat} {env : Env} {chain : List Anchor} {w : World} {e : ExprRef} {x : Expr} :
      arena.expr? e = some x → x.operands = [] → Refused env x [] w →
      Fails ⟨n + 1, env, chain, h, w, .expr e⟩ ⟨n + 1, env, chain, h, w, .expr e⟩
  | operation {n h : Nat} {env : Env} {chain : List Anchor} {w w₁ w₂ : World} {e part : ExprRef} {x : Expr}
      {done : List ExprRef} {vs : List Value} {v : Value} : arena.expr? e = some x → x.operands = done ++ [part] →
      done.mapM (expr arena n env) w = .ok vs w₁ → expr arena n env part w₁ = .ok v w₂ →
      Refused env x (vs ++ [v]) w₂ →
      Fails ⟨n + 1, env, chain, h, w, .expr e⟩ ⟨n, env, chain, h + x.saved + done.length, w₂, .value part v⟩
  | right {n h : Nat} {env : Env} {chain : List Anchor} {w w₁ w₂ : World} {e left right : ExprRef} {x : Int64}
      {v : Value} : arena.expr? e = some (.binary .or left right) → expr arena n env left w = .ok (.int x) w₁ → x ≠ 1 →
      expr arena n env right w₁ = .ok v w₂ → IllFormed (number v) w₂ →
      Fails ⟨n + 1, env, chain, h, w, .expr e⟩ ⟨n, env, chain, h, w₂, .value right v⟩

/-- The stage is about an expression or a declaration that does not exist. -/
def Stage.Unknown (S : Stage) : Prop :=
  match S.task with
  | .expr e => arena.expr? e = none
  | .block (d :: _) _ => arena.decl? d = none
  | _ => False

/-- Evaluation comes from the stage to one at which it fails. -/
def Strays (S : Stage) : Prop :=
  ∃ S', Relation.ReflTransGen (Leads arena) S S' ∧ ((∃ S'', Fails arena S' S'') ∨ S'.Unknown arena)

variable {arena} {S S' S'' : Stage} {n h : Nat} {env : Env} {chain : List Anchor} {w w' : World} {e : ExprRef} {x : Expr}

theorem Strays.lead (hl : Leads arena S S') (hs : Strays arena S') : Strays arena S := by
  obtain ⟨S'', hreach, hfails⟩ := hs
  exact ⟨S'', .head hl hreach, hfails⟩

theorem strays_of_fails (hf : Fails arena S S') : Strays arena S := ⟨S, .refl, .inl ⟨S', hf⟩⟩

theorem mapM_cons_of_ok {f : α → EvalM β} {y : α} {ys : List α} {z : β} {zs : List β} {w₁ w₂ : World}
    (hy : f y w = .ok z w₁) (hys : ys.mapM f w₁ = .ok zs w₂) : (y :: ys).mapM f w = .ok (z :: zs) w₂ := by
  rw [List.mapM_cons, bind_of_ok hy, bind_of_ok hys]
  rfl

theorem mapM_concat_of_ok {f : α → EvalM β} {y : α} {ys : List α} {z : β} {zs : List β} {w₁ w₂ : World}
    (hys : ys.mapM f w = .ok zs w₁) (hy : f y w₁ = .ok z w₂) : (ys ++ [y]).mapM f w = .ok (zs ++ [z]) w₂ := by
  rw [List.mapM_append, bind_of_ok hys, bind_of_ok (mapM_cons_of_ok hy rfl)]
  rfl

/-- What is evaluated first has a value if the whole has one. -/
theorem exists_of_bind {m : EvalM α} {f : α → EvalM β} {y : β} (h : (m >>= f) w = .ok y w') :
    ∃ z w₁, m w = .ok z w₁ ∧ f z w₁ = .ok y w' := by
  have hrun : EStateM.bind m f w = .ok y w' := h
  unfold EStateM.bind at hrun
  split at hrun
  · exact ⟨_, _, ‹_›, hrun⟩
  · cases hrun

/-- In a row of steps the first one that is ill-formed makes the whole so. -/
theorem illFormed_bind {m : EvalM α} {f : α → EvalM β} (h : IllFormed (m >>= f) w) :
    IllFormed m w ∨ ∃ y w', m w = .ok y w' ∧ IllFormed (f y) w' := by
  obtain ⟨w', hrun⟩ := h
  change EStateM.bind m f w = _ at hrun
  unfold EStateM.bind at hrun
  cases hm : m w with
  | ok y w₁ =>
    rw [hm] at hrun
    exact .inr ⟨y, w₁, rfl, w', hrun⟩
  | error e w₁ =>
    rw [hm] at hrun
    cases hrun
    exact .inl ⟨w', hm⟩

theorem IllFormed.bind {m : EvalM α} {f : α → EvalM β} (h : IllFormed m w) : IllFormed (m >>= f) w := by
  obtain ⟨w', hrun⟩ := h
  refine ⟨w', ?_⟩
  show EStateM.bind m f w = _
  unfold EStateM.bind
  rw [hrun]

theorem not_illFormed_pure {y : α} : ¬IllFormed (pure y) w := fun ⟨_, hrun⟩ => nomatch hrun

theorem illFormed_mapM {f : α → EvalM β} {ys : List α} (h : IllFormed (ys.mapM f) w) :
    ∃ done y rest zs w', ys = done ++ y :: rest ∧ done.mapM f w = .ok zs w' ∧ IllFormed (f y) w' := by
  induction ys generalizing w with
  | nil => exact absurd h not_illFormed_pure
  | cons y ys ih =>
    rw [List.mapM_cons] at h
    rcases illFormed_bind h with hy | ⟨z, w₁, hz, h⟩
    · exact ⟨[], y, ys, [], w, rfl, rfl, hy⟩
    · rcases illFormed_bind h with hys | ⟨zs, w₂, -, hrest⟩
      · obtain ⟨done, y', rest, zs, w₂, rfl, hdone, hy'⟩ := ih hys
        exact ⟨y :: done, y', rest, z :: zs, w₂, rfl, mapM_cons_of_ok hz hdone, hy'⟩
      · exact absurd hrest not_illFormed_pure

/-! ## Where an evaluation goes wrong -/

variable (arena n) in
/-- With this fuel, an evaluation of an expression that is ill-formed comes to where it fails. -/
def Traced : Prop := ∀ {env : Env} {chain : List Anchor} {h : Nat} {w : World} {e : ExprRef},
  IllFormed (expr arena n env e) w → Strays arena ⟨n, env, chain, h, w, .expr e⟩

/-- So does an evaluation of declarations with an expression behind them. -/
theorem Traced.block (ih : Traced arena n) {ds : List DeclRef} {body : ExprRef}
    (hill : IllFormed (ds.foldlM (declare arena (expr arena n)) env >>= fun env => expr arena n env body) w) :
    Strays arena ⟨n, env, chain, h, w, .block ds body⟩ := by
  induction ds generalizing env h w with
  | nil => exact (ih hill).lead .body
  | cons d ds ihds =>
    rw [List.foldlM_cons, bind_assoc] at hill
    rcases illFormed_bind hill with hd | ⟨env', w', hd, hrest⟩
    · unfold declare at hd
      cases hx : arena.decl? d with
      | none => exact ⟨_, .refl, .inr hx⟩
      | some x =>
        rw [hx] at hd
        cases x with
        | varDecl v =>
          rcases illFormed_bind hd with hinit | ⟨y, w₁, -, hrest⟩
          · exact (ih hinit).lead (.init hx)
          · exact absurd hrest not_illFormed_pure
        | funDecl f => exact absurd hd not_illFormed_pure
        | classDecl c => exact absurd hd not_illFormed_pure
    · exact (ihds hrest).lead (.declared hd)

/-- The operands of an expression, and then what is behind them. -/
theorem Traced.operands (ih : Traced arena n) {f : List Value → EvalM α} (hx : arena.expr? e = some x)
    (hill : IllFormed (x.operands.mapM (expr arena n env) >>= f) w)
    (h' : ∀ vs w', x.operands.mapM (expr arena n env) w = .ok vs w' → IllFormed (f vs) w' →
      Strays arena ⟨n + 1, env, chain, h, w, .expr e⟩) : Strays arena ⟨n + 1, env, chain, h, w, .expr e⟩ := by
  rcases illFormed_bind hill with hoperands | ⟨vs, w', hvs, hrest⟩
  · obtain ⟨done, part, rest, vs, w', hsplit, hdone, hpart⟩ := illFormed_mapM hoperands
    exact (ih hpart).lead (.operand hx hsplit hdone)
  · exact h' vs w' hvs hrest

theorem ok_of_mapM_singleton {f : α → EvalM β} {y : α} {z : β} (h : [y].mapM f w = .ok [z] w') : f y w = .ok z w' := by
  rw [List.mapM_cons] at h
  obtain ⟨z', w₁, hz, h⟩ := exists_of_bind h
  cases h
  exact hz

/-- An operation is refused its operands. -/
theorem strays_of_refused {vs : List Value} (hx : arena.expr? e = some x)
    (hvs : x.operands.mapM (expr arena n env) w = .ok vs w') (hrefused : Refused env x vs w') :
    Strays arena ⟨n + 1, env, chain, h, w, .expr e⟩ := by
  rcases List.eq_nil_or_concat x.operands with hnil | ⟨done, part, hconcat⟩
  · rw [hnil] at hvs
    cases hvs
    exact strays_of_fails (.bare hx hnil hrefused)
  · rw [List.concat_eq_append] at hconcat
    rw [hconcat, List.mapM_append] at hvs
    obtain ⟨vs₁, w₁, hdone, hvs⟩ := exists_of_bind hvs
    obtain ⟨vs₂, w₂, hpart, hvs⟩ := exists_of_bind hvs
    rw [List.mapM_cons] at hpart
    obtain ⟨v, w₃, hv, hpart⟩ := exists_of_bind hpart
    cases hpart
    cases hvs
    exact strays_of_fails (.operation hx hconcat hdone hv hrefused)

/-- One operand, and then what is behind it. -/
theorem Traced.single (ih : Traced arena n) {f : Value → EvalM α} {operand : ExprRef} (hx : arena.expr? e = some x)
    (hoperands : x.operands = [operand]) (hill : IllFormed (expr arena n env operand >>= f) w)
    (h' : ∀ v w', x.operands.mapM (expr arena n env) w = .ok [v] w' → IllFormed (f v) w' →
      Strays arena ⟨n + 1, env, chain, h, w, .expr e⟩) : Strays arena ⟨n + 1, env, chain, h, w, .expr e⟩ := by
  rcases illFormed_bind hill with hoperand | ⟨v, w', hv, hrest⟩
  · exact (ih hoperand).lead (.operand hx (hoperands.trans (List.nil_append _).symm) rfl)
  · exact h' v w' (hoperands ▸ mapM_cons_of_ok hv rfl) hrest

/-- A number as the only operand, and then what is behind it. -/
theorem Traced.number (ih : Traced arena n) {f : Int64 → EvalM α} {operand : ExprRef} (hx : arena.expr? e = some x)
    (hoperands : x.operands = [operand])
    (hill : IllFormed (expr arena n env operand >>= fun v => Reference.number v >>= f) w)
    (hrefused : ∀ v w, IllFormed (Reference.number v) w → Refused env x [v] w)
    (h' : ∀ v w', x.operands.mapM (expr arena n env) w = .ok [.int v] w' → IllFormed (f v) w' →
      Strays arena ⟨n + 1, env, chain, h, w, .expr e⟩) : Strays arena ⟨n + 1, env, chain, h, w, .expr e⟩ := by
  refine ih.single hx hoperands hill fun v w' hv hrest => ?_
  rcases illFormed_bind hrest with hnumber | ⟨y, w₁, hy, hrest⟩
  · exact strays_of_refused hx hv (hrefused v w' hnumber)
  · cases v <;> cases hy
    exact h' y w' hv hrest

/-- A call, and then what is called. -/
theorem Traced.call (ih : Traced arena n) {target : EvalM (Function × Env)} (hx : arena.expr? e = some x)
    (htarget : target? env x = some target) (hrefused : ∀ vs w, IllFormed (target >>= fits vs) w → Refused env x vs w)
    (hill : IllFormed (x.operands.mapM (expr arena n env) >>= fun vs => target >>= fun q =>
      enter arena (expr arena n) q.1 q.2 vs.reverse) w) : Strays arena ⟨n + 1, env, chain, h, w, .expr e⟩ := by
  refine ih.operands hx hill fun vs w₁ hvs hill => ?_
  rcases illFormed_bind hill with htarget' | ⟨⟨f, outer⟩, w₂, hq, hill⟩
  · exact strays_of_refused hx hvs (hrefused vs w₁ htarget'.bind)
  · unfold enter at hill
    by_cases hlength : vs.length = f.params.length
    · rw [if_pos (by rwa [List.length_reverse])] at hill
      exact (ih.block hill).lead (.enter hx htarget hvs hq hlength)
    · refine strays_of_refused hx hvs (hrefused vs w₁ ⟨w₂, ?_⟩)
      rw [bind_of_ok hq, fits, if_neg hlength]
      rfl

variable (arena n env) in
/-- What an expression makes of the values of its operands. -/
def operation : Expr → List Value → EvalM Value
  | .int v, [] => return .int v
  | .bool b, [] => return truth b
  | .null, [] => return .int (-1)
  | .binary .or _ right, [v] => do
    if (← number v) = 1 then
      return truth true
    else
      return truth ((← number (← expr arena n env right)) = 1)
  | .binary .greaterEqual _ _, [y, x] => operate .greaterEqual x y
  | .binary op _ _, [x, y] => operate op x y
  | .not _, [v] => return truth ((← number v) = 0)
  | .ifElse _ onTrue onFalse, [v] => do
    if (← number v) = 1 then
      expr arena n env onTrue
    else
      expr arena n env onFalse
  | .print _, [v] => do
    let v ← number v
    printed v
    return .int v
  | .name name, [] => nameValue env name
  | .call function _, values => do
    let (f, outer) ← callee env function
    enter arena (expr arena n) f outer values.reverse
  | .methodCall receiver method _, values => do
    let (f, outer) ← methodCallee env receiver method
    enter arena (expr arena n) f outer values.reverse
  | .new name _, values => construct env name values
  | _, _ => throw .illFormed

/-- **First the operands are evaluated,** then the expression makes something of their values. -/
theorem expr_eq_operation (hx : arena.expr? e = some x) :
    expr arena (n + 1) env e = x.operands.mapM (expr arena n env) >>= operation arena n env x := by
  rw [expr, hx]
  cases x with
  | binary op left right =>
    cases op <;> simp only [Expr.operands, List.mapM_cons, List.mapM_nil, bind_assoc, pure_bind] <;> rfl
  | call | methodCall | new => rfl
  | _ =>
    simp only [Expr.operands, List.mapM_cons, List.mapM_nil, bind_assoc, pure_bind]
    rfl

theorem illFormed_of_ok {m : EvalM α} {f : α → EvalM β} {y : α} (h : m w = .ok y w') (hf : IllFormed (f y) w') :
    IllFormed (m >>= f) w := by
  obtain ⟨w₁, hrun⟩ := hf
  exact ⟨w₁, (bind_of_ok h).trans hrun⟩

/-- Where an operation is refused its operands, the expression is ill-formed. -/
theorem illFormed_of_refused {vs : List Value} (hrefused : Refused env x vs w) : IllFormed (operation arena n env x vs) w := by
  have hcall {target : EvalM (Function × Env)} (h : IllFormed (target >>= fits vs) w) :
      IllFormed (target >>= fun q => enter arena (expr arena n) q.1 q.2 vs.reverse) w := by
    rcases illFormed_bind h with htarget | ⟨q, w', hq, hfits⟩
    · exact htarget.bind
    · refine illFormed_of_ok hq ?_
      unfold fits at hfits
      split at hfits
      · exact absurd hfits not_illFormed_pure
      · rename_i hlength
        rw [enter, if_neg (by rwa [List.length_reverse])]
        exact ⟨w', rfl⟩
  unfold Refused at hrefused
  split at hrefused
  case h_6 op _ _ _ _ hne =>
    cases op with
    | greaterEqual => exact absurd rfl hne
    | _ => exact hrefused
  case h_8 => exact hcall hrefused
  case h_9 => exact hcall hrefused
  all_goals first | exact hrefused | exact hrefused.bind | exact hrefused.elim

variable (arena) in
/-- What is evaluated from a stage on is ill-formed. -/
def Stage.IllFormed (S : Stage) : Prop :=
  match S.task with
  | .expr e => Reference.IllFormed (expr arena S.fuel S.env e) S.world
  | .value _ _ => False
  | .block ds body => Reference.IllFormed (ds.foldlM (declare arena (expr arena S.fuel)) S.env >>= fun env =>
      expr arena S.fuel env body) S.world

/-- A stage at which an operation is refused its operands is ill-formed. -/
theorem Fails.illFormed (h : Fails arena S S') : S.IllFormed arena := by
  have hrefused {n env e x w w' vs} (hx : arena.expr? e = some x) (hvs : x.operands.mapM (expr arena n env) w = .ok vs w')
      (h : Refused env x vs w') : Reference.IllFormed (expr arena (n + 1) env e) w := by
    rw [expr_eq_operation hx]
    exact illFormed_of_ok hvs (illFormed_of_refused h)
  cases h with
  | bare hx hnil h => exact hrefused hx (by rw [hnil]; rfl) h
  | operation hx hoperands hdone hv h => exact hrefused hx (hoperands ▸ mapM_concat_of_ok hdone hv) h
  | right hx hl hne hv h =>
    show Reference.IllFormed (expr arena _ _ _) _
    rw [expr_eq_operation hx]
    refine illFormed_of_ok (mapM_cons_of_ok hl rfl) (illFormed_of_ok (y := _) rfl ?_)
    rw [if_neg hne]
    exact illFormed_of_ok hv h.bind

/-- What leads to a stage that is ill-formed is ill-formed. -/
theorem Leads.illFormed (h : Leads arena S S') (hill : S'.IllFormed arena) : S.IllFormed arena := by
  cases h with
  | operand hx hoperands hdone =>
    show Reference.IllFormed (expr arena _ _ _) _
    rw [expr_eq_operation hx, hoperands, List.mapM_append, List.mapM_cons]
    exact (illFormed_of_ok hdone hill.bind.bind).bind
  | @branch n _ env _ _ _ e part x v hx hvs hbranch =>
    show Reference.IllFormed (expr arena _ _ _) _
    rw [expr_eq_operation hx]
    refine illFormed_of_ok hvs ?_
    cases x with
    | binary op =>
      cases op with
      | or =>
        obtain ⟨hne, hright⟩ := Option.ite_none_left_eq_some.1 hbranch
        cases hright
        refine illFormed_of_ok (y := _) rfl ?_
        rw [if_neg hne]
        exact hill.bind
      | _ => cases hbranch
    | ifElse =>
      cases hbranch
      refine illFormed_of_ok (y := _) rfl ?_
      split
      · rwa [if_pos ‹_›] at hill
      · rwa [if_neg ‹_›] at hill
    | _ => cases hbranch
  | @enter n _ env _ _ _ _ _ _ x vs target _ hx htarget hvs hq hlength =>
    have hcall : operation arena n env x vs = target >>= fun q => Reference.enter arena (expr arena n) q.1 q.2 vs.reverse := by
      cases x <;> cases htarget <;> rfl
    show Reference.IllFormed (expr arena _ _ _) _
    rw [expr_eq_operation hx]
    refine illFormed_of_ok hvs ?_
    rw [hcall]
    refine illFormed_of_ok hq ?_
    rw [Reference.enter, if_pos (by rwa [List.length_reverse])]
    exact hill
  | init hx =>
    show Reference.IllFormed (List.foldlM _ _ (_ :: _) >>= _) _
    rw [List.foldlM_cons, declare, hx]
    exact hill.bind.bind.bind
  | declared hd =>
    show Reference.IllFormed (List.foldlM _ _ (_ :: _) >>= _) _
    rw [List.foldlM_cons, bind_assoc]
    exact illFormed_of_ok hd hill
  | body => exact hill
  | value hv => exact hill.elim

end

end Reference

end Fool
