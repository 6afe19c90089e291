import Fool.Proofs.Semantics.Correct
import Fool.Proofs.Semantics.Fuel

/-!
# From stage to stage

From a stage of an evaluation (`Setting.Stands`) the machine comes to every stage that `Leads` leads to, one lemma for
each way (`stands_operand`, `stands_branch`, `stands_enter`, `stands_declared`, `stands_value`); so a run comes to all stages
of the evaluation of its program, unless memory is too small (`comes_reached`). Where that evaluation is ill-formed, it
comes to the operation that is refused its operands (`Errs`).

The stage may lie in a part of the code only; in what is called the run may be anywhere (`StandsIn`).
-/

namespace Fool

namespace Reference

namespace Setting

open Machine (Overflows)

variable (C : Setting)

/-- The machine is at a stage, with so many calls open: with none in front of the address, in what is called anywhere. -/
def StandsIn (stop : Nat) (S : Stage) (d : Nat) (m : Machine) : Prop :=
  ∃ c, Machine.Shows C.image C.size m c ∧ C.Stands (if d = 0 then stop else C.image.size) S c

/-- The machine is where the evaluation of its program becomes ill-formed: an operation is refused its operands. -/
def Errs (m : Machine) : Prop := ∃ S S', Reached C.program S ∧ Fails C.program.arena S S' ∧ C.At S' m

variable {C} {W : C.Watch} {Γ : Context} {e part body : ExprRef} {x : Expr} {n h ip stop d : Nat} {env env' outer : Env}
variable {w w' w₁ w₂ : World} {chain : List Anchor} {σ : Store} {s : List Int64} {R : Register → Int64} {c : Config}
variable {S S' : Stage} {code : Code} {P : Config → Prop} {inClass : Bool} {m : Machine}

/-- An evaluation that gives a value is followed to its end. -/
theorem will_of_follows {α : Type} {H : Prop} {r : EStateM.Result Stop World α} {Q : α → World → Config → Prop} {x : α}
    (hfollows : Follows (W.upTo stop) C.size H r Q c) (hrun : r = .ok x w)
    (hQ : ∀ c', Q x w c' → Will (W.upTo stop) C.size P Overflows c') : Will (W.upTo stop) C.size P Overflows c := by
  subst hrun
  exact (hfollows trivial).bind (fun e out he => (he.resolve_right id).1) hQ

theorem overflows_of_allowed {α : Type} {x : α} {e : MachineError} {out : List Int64}
    (h : Allowed (.ok x w : EStateM.Result Stop World α) e out) : Overflows e out := (h.resolve_right id).1

/-- Something stands where the machine goes on. -/
theorem Stands.lt_size (h : C.Stands stop S c) : c.ip < C.image.size := by
  cases h with
  | expr _ _ hp => exact Nat.lt_of_le_of_lt (Nat.le_add_right _ _) hp.2
  | value _ _ hp => exact hp.2
  | block _ _ _ hp => exact Nat.lt_of_le_of_lt (Nat.le_add_right _ _) hp.2

theorem At.instruction (h : C.At S m) : ∃ i, m.image.get? m.ip = some i := by
  obtain ⟨c, hm, hst⟩ := h
  exact ⟨_, hm.instruction.trans (Array.getElem?_eq_getElem hst.lt_size)⟩

theorem StandsIn.at (h : C.StandsIn stop S d m) : C.At S m := by
  obtain ⟨c, hm, hst⟩ := h
  exact ⟨c, hm, hst.all⟩

theorem Coded.ne_nil (h : C.Coded inClass e code) : code ≠ [] := by
  cases h with
  | binary _ _ _ _ htail => cases htail <;> simp
  | greaterEqual _ _ _ htail => cases htail <;> simp
  | name => simp [Code.loadAt]
  | _ => simp

/-- **The code of an expression begins with that of its operands.** -/
theorem Coded.operands (hcode : C.Coded inClass e code) (hx : C.program.arena.expr? e = some x) : ∃ codes,
    List.Forall₂ (C.Coded inClass) x.operands codes ∧ List.replicate x.saved (.load .fp) ++ codes.flatten <+: code := by
  cases hcode with
  | @binary _ left right op first second tail hx' hne hfirst hsecond htail =>
    cases hx.symm.trans hx'
    cases htail with
    | arith ho =>
      refine ⟨[first, second], ?_, by simp [Expr.saved]⟩
      cases op <;> cases ho <;> exact .cons hfirst (.cons hsecond .nil)
    | comparison ho =>
      refine ⟨[first, second], ?_, by simp [Expr.saved]⟩
      cases op <;> cases ho <;> first | exact absurd rfl hne | exact .cons hfirst (.cons hsecond .nil)
    | or => exact ⟨[first], .cons hfirst .nil, by simp [Expr.saved]⟩
  | @greaterEqual _ left right first second tail hx' hfirst hsecond htail =>
    cases hx.symm.trans hx'
    cases htail with
    | arith ho => cases ho
    | comparison ho => exact ⟨[first, second], .cons hfirst (.cons hsecond .nil), by simp [Expr.saved]⟩
  | @not _ operand code _ _ hx' hoperand =>
    cases hx.symm.trans hx'
    exact ⟨[code], .cons hoperand .nil, by simp [Expr.saved]⟩
  | @ifElse _ _ _ _ test _ _ _ _ hx' htest =>
    cases hx.symm.trans hx'
    exact ⟨[test], .cons htest .nil, by simp [Expr.saved]⟩
  | @print _ operand code hx' hoperand =>
    cases hx.symm.trans hx'
    exact ⟨[code], .cons hoperand .nil, by simp [Expr.saved]⟩
  | call hx' _ hcodes =>
    cases hx.symm.trans hx'
    exact ⟨_, hcodes, by simp [Expr.saved]⟩
  | methodCall hx' _ _ hcodes =>
    cases hx.symm.trans hx'
    exact ⟨_, hcodes, by simp [Expr.saved]⟩
  | new hx' _ hcodes =>
    cases hx.symm.trans hx'
    exact ⟨_, hcodes, by simp [Expr.saved]⟩
  | _ =>
    cases hx.symm.trans ‹_›
    exact ⟨[], .nil, by simp [Expr.saved]⟩

/-! ## From stage to stage -/

/-- At most one value is put on the stack. -/
theorem will_pushes {i : Nat} {y : Instruction} {v : Int64} {out : List Int64} {E : MachineError → List Int64 → Prop}
    (hi : i ≤ 1) (hp : (W.upTo stop).Placed ip (List.replicate i y)) (hv : y.pushed? (W.upTo stop).toImage R = some v)
    (hhp : R .hp = Int64.ofNat σ.heap.length) (he : ∀ ip, E (.stackOverflow ip) out)
    (hrest : Will (W.upTo stop) C.size P E ⟨ip + i, List.replicate i v ++ s, σ.heap, R, out⟩) :
    Will (W.upTo stop) C.size P E ⟨ip, s, σ.heap, R, out⟩ := by
  obtain rfl | rfl : i = 0 ∨ i = 1 := by omega
  · exact hrest
  · exact will_push hp.1 hv hhp he fun _ => hrest

variable (C) in
/-- The operands have been evaluated, with so many words below their values, and the machine goes on at the address. -/
def GivesOperands (env : Env) (Γ : Context) (chain : List Anchor) (height next : Nat) (vs : List Value) (w : World)
    (c : Config) : Prop :=
  ∃ σ s R, C.Ready env Γ σ s R w ∧ C.Anchored σ s env chain (R .fp) ∧ s.length = height + vs.length ∧
    c = ⟨next, s, σ.heap, R, w.output⟩

/-- **Operands** are evaluated one behind the other. A call keeps the frame of the caller below them. -/
theorem follows_operands {done : List ExprRef} {codes : List Code} (hs : C.program.Site Γ e)
    (hx : C.program.arena.expr? e = some x) (hoperands : ∃ rest, x.operands = done ++ rest)
    (hcodes : List.Forall₂ (C.Coded Γ.inClass) done codes)
    (hp : (W.upTo stop).Embedded ip (List.replicate x.saved (.load .fp) ++ codes.flatten))
    (hr : C.Ready env Γ σ s R w) (ha : C.Anchored σ s env chain (R .fp))
    (hS : W.stage ⟨n + 1, env, chain, s.length, w, .expr e⟩) :
    Follows (W.upTo stop) C.size (C.Enough (n + 1) e s) (done.mapM (expr C.program.arena n env) w)
      (C.GivesOperands env Γ chain (s.length + x.saved) (ip + x.saved + codes.flatten.length))
      ⟨ip, s, σ.heap, R, w.output⟩ := by
  obtain ⟨⟨hsave, -⟩, hfront⟩ := View.embedded_append.1 hp
  rw [List.length_replicate] at hfront
  have hsaved : x.saved ≤ 1 := by cases x <;> simp [Expr.saved]
  have hsuffix : s <:+ List.replicate x.saved (R .fp) ++ s := List.suffix_append _ _
  have hr' := hr.after hr.keeps hsuffix hr.objects
  have hlength : (List.replicate x.saved (R .fp) ++ s).length = s.length + x.saved := by
    rw [List.length_append, List.length_replicate, Nat.add_comm]
  have hall : ∃ rest, x.operands = [] ++ done ++ rest := by simpa using hoperands
  intro hset
  refine will_pushes hsaved hsave rfl hr.hp (allowed_overflow (prints_mapM (prints_expr n env) done)) ?_
  refine (follows_args (simulates W n) hs hx hall ⟨chain, ha, hS⟩ rfl hr.keeps hsuffix (by simpa using hlength) hcodes hfront
    hr').mono ?_ hset
  rintro vs w' c ⟨σ', R', words, hk, hw, hvs, rfl⟩
  have hsuffix' := List.suffix_append words.reverse (List.replicate x.saved (R .fp) ++ s)
  refine ⟨σ', _, R', hr'.after hk hsuffix' hw, hk.fp ▸ ha.grow hk.grows (hsuffix.trans hsuffix'), ?_, rfl⟩
  rw [List.length_append, List.length_reverse, hlength, hvs.length_eq, Nat.add_comm]

/-- The machine comes to the next operand, if the code of the operands lies ahead. -/
theorem stands_part {done rest : List ExprRef} {codes : List Code} {vs : List Value} (hs : C.program.Site Γ e)
    (hx : C.program.arena.expr? e = some x) (hoperands : x.operands = done ++ part :: rest)
    (hcodes : List.Forall₂ (C.Coded Γ.inClass) x.operands codes)
    (hp : (W.upTo stop).Embedded ip (List.replicate x.saved (.load .fp) ++ codes.flatten))
    (hr : C.Ready env Γ σ s R w) (ha : C.Anchored σ s env chain (R .fp)) (hlen : s.length = h)
    (hS : W.stage ⟨n + 1, env, chain, h, w, .expr e⟩) (hdone : done.mapM (expr C.program.arena n env) w = .ok vs w') :
    Will (W.upTo stop) C.size (C.Stands stop ⟨n, env, chain, h + x.saved + done.length, w', .expr part⟩) Overflows
      ⟨ip, s, σ.heap, R, w.output⟩ := by
  subst hlen
  rw [hoperands] at hcodes
  obtain ⟨front, back, hfront, hback, rfl⟩ := forall₂_split hcodes
  cases hback with
  | cons hpart _ =>
    rw [List.flatten_append, List.flatten_cons, ← List.append_assoc] at hp
    obtain ⟨hbefore, hbehind⟩ := View.embedded_append.1 hp
    rw [List.length_append, List.length_replicate, ← Nat.add_assoc] at hbehind
    have hnext : part ∈ x.operands := hoperands ▸ List.mem_append_right done List.mem_cons_self
    refine will_of_follows (follows_operands hs hx ⟨_, hoperands⟩ hfront hbefore hr ha hS) hdone ?_
    rintro c ⟨σ', s', R', hr', ha', hlen, rfl⟩
    refine will_done (.expr (site_part hs hx (Expr.mem_parts hnext)) hpart (View.embedded_append.1 hbehind).1 hr' ha' ?_)
    rw [hlen, length_mapM hdone]

/-- The machine comes to the next operand. -/
theorem stands_operand {done rest : List ExprRef} {vs : List Value}
    (hst : C.Stands stop ⟨n + 1, env, chain, h, w, .expr e⟩ c) (hS : W.stage ⟨n + 1, env, chain, h, w, .expr e⟩)
    (hx : C.program.arena.expr? e = some x) (hoperands : x.operands = done ++ part :: rest)
    (hdone : done.mapM (expr C.program.arena n env) w = .ok vs w') :
    Will (W.upTo stop) C.size (C.Stands stop ⟨n, env, chain, h + x.saved + done.length, w', .expr part⟩) Overflows c := by
  cases hst with
  | expr hs hcode hp hr ha hlen =>
    obtain ⟨codes, hcodes, tail, rfl⟩ := hcode.operands hx
    exact stands_part hs hx hoperands hcodes (View.embedded_append.1 hp).1 hr ha hlen hS hdone

/-- The way to a branch: the operand is compared with 1. -/
theorem stands_test {v : Int64} {operand : ExprRef} {first rest : Code} {l : String} {t : Nat}
    (hs : C.program.Site Γ e) (hx : C.program.arena.expr? e = some x) (hoperands : x.operands = [operand])
    (hsaved : x.saved = 0) (hfirst : C.Coded Γ.inClass operand first)
    (hp : (W.upTo stop).Embedded ip (first ++ (.push 1 :: .branch .equal l :: rest))) (hr : C.Ready env Γ σ s R w)
    (ha : C.Anchored σ s env chain (R .fp)) (hS : W.stage ⟨n + 1, env, chain, s.length, w, .expr e⟩)
    (hl : (W.upTo stop).addressOf? l = some t)
    (hv : x.operands.mapM (expr C.program.arena n env) w = .ok [.int v] w')
    (hP : ∀ σ' R', C.Ready env Γ σ' s R' w' → C.Anchored σ' s env chain (R' .fp) →
      Will (W.upTo stop) C.size P Overflows ⟨if v = 1 then t else ip + first.length + 2, s, σ'.heap, R', w'.output⟩) :
    Will (W.upTo stop) C.size P Overflows ⟨ip, s, σ.heap, R, w.output⟩ := by
  rw [hoperands] at hv
  obtain ⟨hfirst', ⟨hpush, hjump, -⟩, -⟩ := View.embedded_append.1 hp
  have hmem : operand ∈ x.parts := Expr.mem_parts (hoperands ▸ List.mem_singleton_self operand)
  have ht : W.Told (n + 1) env σ s (R .fp) w (.expr e) := ⟨chain, ha, hS⟩
  refine will_of_follows (simulates W n (site_part hs hx hmem) hfirst hfirst' hr (ht.first hx hoperands hsaved hr))
    (ok_of_mapM_singleton hv) ?_
  rintro c ⟨σ', R', word, hk, hw, hword, rfl⟩
  cases hword
  have hr' := hr.after hk (List.suffix_refl s) hw
  refine will_push hpush rfl hr'.hp (fun ip => ⟨ip, rfl⟩) fun _ => will_branch hjump hl ?_
  have hgoal := hP σ' R' hr' (hk.fp ▸ ha.grow hk.grows (List.suffix_refl s))
  simpa only [Comparison.holds, decide_eq_true_eq] using hgoal

/-- **Branches:** the operand decides where the machine goes on. -/
theorem stands_branch {v : Int64} (hst : C.Stands stop ⟨n + 1, env, chain, h, w, .expr e⟩ c)
    (hS : W.stage ⟨n + 1, env, chain, h, w, .expr e⟩) (hx : C.program.arena.expr? e = some x)
    (hvs : x.operands.mapM (expr C.program.arena n env) w = .ok [.int v] w') (hbranch : x.branch? v = some part) :
    Will (W.upTo stop) C.size (C.Stands stop ⟨n, env, chain, h, w', .expr part⟩) Overflows c := by
  cases hst with
  | @expr _ _ ip _ _ _ _ Γ σ s R code hs hcode hp hr ha hlen =>
    subst hlen
    cases hcode with
    | @binary _ left right op first second tail hx' hne hfirst hsecond htail =>
      cases hx.symm.trans hx'
      cases htail with
      | arith ho => cases op <;> cases ho <;> cases hbranch
      | comparison ho => cases op <;> cases ho <;> cases hbranch
      | @or right onTrue done =>
        rw [Expr.branch?, Option.ite_none_left_eq_some, Option.some.injEq] at hbranch
        obtain ⟨hone, rfl⟩ := hbranch
        have hrest := (View.embedded_append.1 hp).2
        obtain ⟨hfront, hback⟩ := View.embedded_append.1 hrest
        have hsecond' := (View.embedded_append.1 hfront).2
        obtain ⟨-, -, -, -, hl, -⟩ := hback.1
        rw [List.append_assoc] at hp
        refine stands_test hs hx rfl rfl hfirst hp hr ha hS (Watch.labels hl) hvs fun σ' R' hr' ha' => ?_
        rw [if_neg hone]
        exact will_done (.expr (site_part hs hx (by simp [Expr.parts])) hsecond hsecond' hr' ha' rfl)
    | @ifElse _ condition onTrue onFalse test yes no first done hx' htest hyes hno =>
      cases hx.symm.trans hx'
      obtain ⟨hfront, -⟩ := View.embedded_append.1 hp
      obtain ⟨hfront, hyes'⟩ := View.embedded_append.1 hfront
      obtain ⟨hfront, ⟨-, hl, -⟩, -⟩ := View.embedded_append.1 hfront
      obtain ⟨-, hno'⟩ := View.embedded_append.1 hfront
      simp only [List.append_assoc] at hp
      refine stands_test hs hx rfl rfl htest hp hr ha hS (Watch.labels hl) hvs fun σ' R' hr' ha' => ?_
      rw [Expr.branch?, Option.some.injEq] at hbranch
      subst hbranch
      split
      · refine will_label hl (will_done (.expr (site_part hs hx (by simp [Expr.parts])) hyes ?_ hr' ha' rfl))
        simpa [Nat.add_assoc] using hyes'
      · refine will_done (.expr (site_part hs hx (by simp [Expr.parts])) hno ?_ hr' ha' rfl)
        simpa [Nat.add_assoc] using hno'
    | greaterEqual hx' =>
      cases hx.symm.trans hx'
      cases hbranch
    | _ =>
      cases hx.symm.trans ‹_›
      cases hbranch

/-- What is called begins with the stage of its local declarations and its body. -/
theorem stands_unit {f : Function} {vs : List Value} {words : List Int64} {t b ret : Nat} {R' : Register → Int64}
    (ha : C.Anchored σ s env chain (R .fp)) (hf : C.FunctionAt Γ f t) (hl : C.Located σ (words ++ R .fp :: s) outer Γ b)
    (hwithin : C.Within σ (words ++ R .fp :: s) env (R .fp) outer (Int64.ofNat b)) (hs : C.Sound σ) (hg : σ.globals <:+ s)
    (hw : w.objects = σ.values) (hhp : R' .hp = Int64.ofNat σ.heap.length) (hra : R' .ra = Int64.ofNat ret)
    (hargs : List.Forall₂ (C.Shown σ) vs.reverse words) (hlength : vs.length = f.params.length)
    (hheight : s.length = h) :
    Will W.inside C.size (C.Stands C.image.size ⟨n, bindParams (.frame outer) (f.params.zip vs.reverse),
      .frame (h + vs.length + 2) :: surround chain outer, h + vs.length + 3, w, .block f.locals f.body⟩) Overflows
      ⟨t, Int64.ofNat b :: (words ++ R .fp :: s), σ.heap, R', w.output⟩ := by
  have hbase : (words ++ R .fp :: s).length = h + vs.length + 1 := by
    rw [List.length_append, List.length_cons, ← hargs.length_eq, List.length_reverse]
    omega
  have hparams : vs.reverse.length = f.params.length := by rw [List.length_reverse, hlength]
  refine will_of_used fun hused => ?_
  simp only [Config.used, List.length_cons] at hused
  have houter : C.Anchored σ (words ++ R .fp :: s) outer (surround chain outer) (Int64.ofNat b) :=
    hwithin (by omega) chain (ha.grow (.refl σ) ((List.suffix_cons _ s).trans (List.suffix_append words _)))
  obtain ⟨k, entry, locals, body, hlocals, hbody, hplaced⟩ := hf.unit
  rw [List.append_assoc, ← List.append_assoc locals.flatten] at hplaced
  obtain ⟨hopens, hrest⟩ := Image.placed_append.1 hplaced.inside
  have hblock := W.inside.embedded_front hrest
  refine will_open hf hopens hl hs (hg.trans (List.suffix_cons _ s)) hw hhp hra hargs hparams (fun ip => ⟨ip, rfl⟩) ?_
  intro a R₃ hlink ho
  have hregion : C.program.Region (f.block :: Γ) ([] ++ f.locals) f.body := hf.region
  have hframe := houter.enter (Int64.ofNat ret) hlink
  rw [hbase, ← ho.fp] at hframe
  rw [← Context.bind_nil (f.block :: Γ) C.program.arena] at ho
  refine will_done (.block hregion hlocals hbody hblock ho.ready (hframe.params _) ?_ fun _ => ⟨a, ho⟩)
  rw [List.length_cons, List.length_cons, hbase]

/-- **Calls:** what is called is entered. -/
theorem stands_enter {target : EvalM (Function × Env)} {f : Function} {vs : List Value}
    (hst : C.Stands stop ⟨n + 1, env, chain, h, w, .expr e⟩ c) (hS : W.stage ⟨n + 1, env, chain, h, w, .expr e⟩)
    (hb : (W.upTo stop).Begun m) (hm : Machine.Shows C.image C.size m c) (hx : C.program.arena.expr? e = some x)
    (htarget : target? env x = some target) (hvs : x.operands.mapM (expr C.program.arena n env) w = .ok vs w₁)
    (hq : target w₁ = .ok (f, outer) w₂) (hlength : vs.length = f.params.length) :
    Machine.Comes (W.upTo stop) (C.StandsIn stop ⟨n, bindParams (.frame outer) (f.params.zip vs.reverse),
      .frame (h + vs.length + 2) :: surround chain outer, h + vs.length + 3, w₂, .block f.locals f.body⟩) Overflows m := by
  cases hst with
  | @expr _ _ ip _ _ _ _ Γ σ s R code hs hcode hp hr ha hlen =>
    have hrun : (x.operands.mapM (expr C.program.arena n env) >>= fun values => target >>= fun q =>
        pure (q, values.reverse)) w = .ok ((f, outer), vs.reverse) w₂ := by
      rw [bind_of_ok hvs, bind_of_ok hq]
      rfl
    obtain ⟨inner, rfl⟩ : ∃ inner, code = .load .fp :: inner ++ [.jumpSub] := by
      obtain ⟨codes, front, rfl, -⟩ := exists_calling hs hx htarget hcode
      exact ⟨_, rfl⟩
    have ht : W.Told (n + 1) env σ s (R .fp) w (.expr e) := ⟨chain, ha, hlen ▸ hS⟩
    refine (comes_performed (simulates W n) hs hx htarget hcode hp hr ht hb hm hrun trivial).onward
      (fun _ _ => overflows_of_allowed) ?_
    rintro k d m₁ hpasses ⟨rfl, hcalling, hcalls, c, hm₁, Γ', t, b, σ', R', words, hf, hl, hwithin, hk, hw, hargs, rfl⟩
    have hjump := (Image.placed_append.1 hp.1).2.1
    rw [List.length_cons, ← Nat.add_assoc] at hjump
    obtain ⟨m₂, hcall, hm₂⟩ := exists_call (V := W.upTo stop) hm₁ hjump hcalling hcalls hf.lt_size C.linked.size
    have hra : Function.update R' .ra (Int64.ofNat (ip + inner.length + 1 + 1)) .ra =
        Int64.ofNat (ip + inner.length + 1 + 1) := Function.update_self _ _ _
    refine .deeper (hpasses.trans (fun _ _ => id) hcall) (Nat.succ_ne_zero 0) ?_
    refine (stands_unit (n := n) (ha.grow hk.grows (List.suffix_refl s)) hf hl hwithin hk.sound (hk.globals ▸ hr.globals) hw
      (by simpa using hk.hp) hra hargs hlength hlen m₂ (hcall.begun (hpasses.begun hb)) hm₂).mono ?_
    rintro d' m' ⟨rfl, c', hm', hst'⟩
    exact ⟨c', hm', hst'⟩

/-! ## Declarations and values -/

/-- **Declarations** are evaluated one behind the other. -/
theorem stands_declared {d : DeclRef} {ds : List DeclRef}
    (hst : C.Stands stop ⟨n, env, chain, h, w, .block (d :: ds) body⟩ c)
    (hS : W.stage ⟨n, env, chain, h, w, .block (d :: ds) body⟩)
    (hd : declare C.program.arena (expr C.program.arena n) env d w = .ok env' w') :
    Will (W.upTo stop) C.size (C.Stands stop ⟨n, env', chain, h + 1, w', .block ds body⟩) Overflows c := by
  cases hst with
  | @block _ _ k ip _ _ _ done _ _ Γ σ s R codes code hregion hcodes hcode hp hr ha hlen hopened =>
    obtain ⟨a, ho⟩ := hopened (List.cons_ne_nil d ds)
    cases hcodes with
    | @cons _ first _ codes hfirst hcodes =>
      rw [List.flatten_cons, List.append_assoc] at hp
      obtain ⟨hfirst', hp⟩ := View.embedded_append.1 hp
      have ht : W.Told n env σ s (R .fp) w (.block (d :: ds) body) := ⟨chain, ha, hlen ▸ hS⟩
      refine will_of_follows (follows_declare (simulates W n) hregion hfirst hfirst' ho ht) hd ?_
      rintro c ⟨σ', s', R', hgrows, -, hs, ho', rfl⟩
      have hanchored := (ha.grow hgrows hs).declare hd
      have hlength : done.length + 1 = (done ++ [d]).length := by simp
      have hnext := ho.next
      have hnext' := ho'.next
      rw [hlength] at ho'
      rw [List.append_cons] at hregion
      refine will_done (.block hregion hcodes hcode hp ho'.ready ?_ ?_ fun _ => ⟨a, ho'⟩)
      · rwa [ho'.fp, ← ho.fp]
      · omega

/-- The machine comes to the initial value of a variable. -/
theorem stands_init {d : DeclRef} {ds : List DeclRef} {v : Variable}
    (hst : C.Stands stop ⟨n, env, chain, h, w, .block (d :: ds) body⟩ c)
    (hx : C.program.arena.decl? d = some (.varDecl v)) : C.Stands stop ⟨n, env, chain, h, w, .expr v.init⟩ c := by
  cases hst with
  | @block _ _ k ip _ _ _ done _ _ Γ σ s R codes code hregion hcodes hcode hp hr ha hlen hopened =>
    cases hcodes with
    | @cons _ first _ codes hfirst hcodes =>
      rw [List.flatten_cons, List.append_assoc] at hp
      obtain ⟨hfirst', -⟩ := View.embedded_append.1 hp
      cases k with
      | zero => exact hfirst.elim
      | succ k =>
        unfold DeclCoded at hfirst
        rw [Generator.DeclCoded, hx] at hfirst
        refine .expr (.init hregion hx (C.program.arena.mem_walk_self _)) ?_ hfirst' hr ha hlen
        rwa [Context.inClass_bind]

/-- Behind the declarations it comes to the body. -/
theorem stands_body (hst : C.Stands stop ⟨n, env, chain, h, w, .block [] body⟩ c) :
    C.Stands stop ⟨n, env, chain, h, w, .expr body⟩ c := by
  cases hst with
  | @block _ _ k ip _ _ _ done _ _ Γ σ s R codes code hregion hcodes hcode hp hr ha hlen hopened =>
    cases hcodes
    rw [List.append_nil] at hregion
    refine .expr (.body hregion (C.program.arena.mem_walk_self _)) ?_ hp hr ha hlen
    rwa [Context.inClass_bind]

/-- **Values:** the value of an expression is left on the stack. -/
theorem stands_value {v : Value} (hst : C.Stands stop ⟨n, env, chain, h, w, .expr e⟩ c)
    (hS : W.stage ⟨n, env, chain, h, w, .expr e⟩) (hv : expr C.program.arena n env e w = .ok v w') :
    Will (W.upTo stop) C.size (C.Stands stop ⟨n, env, chain, h, w', .value e v⟩) Overflows c := by
  cases hst with
  | @expr _ _ ip _ _ _ _ Γ σ s R code hs hcode hp hr ha hlen =>
    refine will_of_follows (simulates W n hs hcode hp hr ⟨chain, ha, hlen ▸ hS⟩) hv ?_
    rintro c ⟨σ', R', word, hk, hw, hword, rfl⟩
    have hsuffix := List.suffix_refl s
    exact will_done (.value hs hcode hp (hr.after hk hsuffix hw) (hk.fp ▸ ha.grow hk.grows hsuffix) hlen hword)

/-! ## All stages -/

/-- What a run comes to in a configuration, it comes to with no call open. -/
theorem comes_standing (h : Will (W.upTo stop) C.size (C.Stands stop S) Overflows c) (hb : (W.upTo stop).Begun m)
    (hm : Machine.Shows C.image C.size m c) : Machine.Comes (W.upTo stop) (C.StandsIn stop S) Overflows m := by
  refine (h m hb hm).mono ?_
  rintro d m' ⟨rfl, c', hm', hst⟩
  exact ⟨c', hm', hst⟩

/-- **From each stage the machine comes to the next ones.** -/
theorem Stands.lead (hst : C.Stands stop S c) (hS : W.stage S) (hb : (W.upTo stop).Begun m)
    (hm : Machine.Shows C.image C.size m c) (hl : Leads C.program.arena S S') :
    Machine.Comes (W.upTo stop) (C.StandsIn stop S') Overflows m := by
  cases hl with
  | operand hx hoperands hdone => exact comes_standing (stands_operand hst hS hx hoperands hdone) hb hm
  | branch hx hvs hbranch => exact comes_standing (stands_branch hst hS hx hvs hbranch) hb hm
  | enter hx htarget hvs hq hlength => exact stands_enter hst hS hb hm hx htarget hvs hq hlength
  | init hx => exact comes_standing (will_done (stands_init hst hx)) hb hm
  | declared hd => exact comes_standing (stands_declared hst hS hd) hb hm
  | body => exact comes_standing (will_done (stands_body hst)) hb hm
  | value hv => exact comes_standing (stands_value hst hS hv) hb hm

/-- From there it comes to those behind them. -/
theorem Stands.leads (hst : C.Stands stop S c) (hS : W.stage S) (hb : (W.upTo stop).Begun m)
    (hm : Machine.Shows C.image C.size m c) (hl : Relation.ReflTransGen (Leads C.program.arena) S S') :
    Machine.Comes (W.upTo stop) (C.StandsIn stop S') Overflows m := by
  induction hl with
  | refl => exact comes_standing (will_done hst) hb hm
  | @tail S₁ S₂ hreach hlast ih =>
    have hS₁ : W.stage S₁ := by
      clear ih hlast
      induction hreach with
      | refl => exact hS
      | tail _ hlast ih => exact W.leads ih hlast
    refine ih.onward (fun _ _ he => he) ?_
    rintro k d m₁ hpasses ⟨c₁, hm₁, hst₁⟩
    by_cases hd : d = 0
    · subst hd
      exact (hst₁.lead hS₁ (hpasses.begun hb) hm₁ hlast).behind hpasses
    · -- in what is called the stage may be anywhere
      rw [if_neg hd] at hst₁
      refine .deeper hpasses hd ((hst₁.lead (W := W) hS₁ (hpasses.begun hb) hm₁ hlast).mono ?_)
      rintro d' m₂ ⟨c₂, hm₂, hst₂⟩
      refine ⟨c₂, hm₂, ?_⟩
      rw [if_neg (Nat.ne_of_gt (Nat.add_pos_left (Nat.pos_of_ne_zero hd) d'))]
      rwa [ite_self] at hst₂

theorem Errs.instruction (h : C.Errs m) : ∃ i, m.image.get? m.ip = some i := by
  obtain ⟨_, _, _, _, hat⟩ := h
  exact hat.instruction

end Setting

end Reference

end Fool
