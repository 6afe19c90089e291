import Fool.Proofs.Semantics.Follows
import Fool.Proofs.Semantics.Lookup

/-!
# Where a run stands in an evaluation

A state of the machine is `Ready` for an expression if the surroundings are located around its frame and the rest of
memory is sound; the frame is `Opened` so far if it holds the values of so many declarations. `Setting.Stands S c` says
that in the configuration `c` the machine stands at the stage `S`: the code of what is evaluated next lies ahead, the
surroundings are located around the frame, and the scopes are where the chain says.

A `Watch` knows at which stages a run may be. Code is run under watch (`Watch.upTo`): each call that the run makes is the
call of such a stage, which the run has been at (`Setting.Performs`). That what is evaluated next belongs to a stage under
watch is `Watch.Told`; it is handed on as evaluation goes on, one lemma for each way to a next stage.
-/

namespace Fool

namespace Reference

namespace Setting

variable (C : Setting)

/-! ## The state of the machine -/

/-- The machine stands where an expression with these surroundings is evaluated. -/
structure Ready (env : Env) (Γ : Context) (σ : Store) (s : List Int64) (R : Register → Int64) (w : World) : Prop where
  sound : C.Sound σ
  globals : σ.globals <:+ s
  objects : w.objects = σ.values
  hp : R .hp = Int64.ofNat σ.heap.length
  located : ∃ a, R .fp = Int64.ofNat a ∧ C.Located σ s env Γ a

/-- What an evaluation leaves as it was, and what it only adds to. -/
structure Keeps (σ : Store) (R : Register → Int64) (σ' : Store) (R' : Register → Int64) : Prop where
  grows : σ.Grows σ'
  globals : σ'.globals = σ.globals
  sound : C.Sound σ'
  fp : R' .fp = R .fp
  hp : R' .hp = Int64.ofNat σ'.heap.length

/-- The frame at the address holds the values of so many declarations. -/
structure Opened (a i : Nat) (env : Env) (Γ : Context) (σ : Store) (s : List Int64) (R : Register → Int64) (w : World) :
    Prop where
  sound : C.Sound σ
  globals : σ.globals <:+ s
  objects : w.objects = σ.values
  hp : R .hp = Int64.ofNat σ.heap.length
  fp : R .fp = Int64.ofNat a
  located : C.Located σ s env Γ a
  next : a + s.length = C.size + 1 + i
  outermost : Γ.length = 1 → σ.globals = s

/-- **The machine stands at a stage of an evaluation,** whose code lies in front of an address. -/
inductive Stands (stop : Nat) : Stage → Config → Prop
  /-- The code of the expression lies ahead. -/
  | expr {n h ip : Nat} {env : Env} {chain : List Anchor} {w : World} {e : ExprRef} {Γ : Context} {σ : Store}
      {s : List Int64} {R : Register → Int64} {code : Code} : C.program.Site Γ e → C.Coded Γ.inClass e code →
      (View.upTo C.image stop).Embedded ip code → C.Ready env Γ σ s R w → C.Anchored σ s env chain (R .fp) →
      s.length = h → Stands stop ⟨n, env, chain, h, w, .expr e⟩ ⟨ip, s, σ.heap, R, w.output⟩
  /-- The code of the expression lies behind, and its value is on the stack. -/
  | value {n h ip : Nat} {env : Env} {chain : List Anchor} {w : World} {e : ExprRef} {v : Value} {Γ : Context} {σ : Store}
      {s : List Int64} {R : Register → Int64} {code : Code} {word : Int64} : C.program.Site Γ e →
      C.Coded Γ.inClass e code → (View.upTo C.image stop).Embedded ip code → C.Ready env Γ σ s R w →
      C.Anchored σ s env chain (R .fp) → s.length = h → C.Shown σ v word →
      Stands stop ⟨n, env, chain, h, w, .value e v⟩ ⟨ip + code.length, word :: s, σ.heap, R, w.output⟩
  /-- The code of the declarations lies ahead, and behind it that of the body. -/
  | block {n h k ip : Nat} {env : Env} {chain : List Anchor} {w : World} {done ds : List DeclRef} {body : ExprRef}
      {Γ : Context} {σ : Store} {s : List Int64} {R : Register → Int64} {codes : List Code} {code : Code} :
      C.program.Region Γ (done ++ ds) body → List.Forall₂ (C.DeclCoded k Γ.inClass) ds codes →
      C.Coded Γ.inClass body code → (View.upTo C.image stop).Embedded ip (codes.flatten ++ code) →
      C.Ready env (Γ.bind C.program.arena done) σ s R w → C.Anchored σ s env chain (R .fp) → s.length = h →
      (ds ≠ [] → ∃ a, C.Opened a done.length env (Γ.bind C.program.arena done) σ s R w) →
      Stands stop ⟨n, env, chain, h, w, .block ds body⟩ ⟨ip, s, σ.heap, R, w.output⟩

/-- The machine is at a stage. -/
def At (S : Stage) (m : Machine) : Prop := ∃ c, Machine.Shows C.image C.size m c ∧ C.Stands C.image.size S c

/-- The machine is at the stage of a call, whose code lies ahead: it begins with the frame of the caller and ends with the
jump, which is at the address. -/
inductive Begins (e : ExprRef) (jump : Nat) : Stage → Machine → Prop
  | intro {n h ip : Nat} {env : Env} {chain : List Anchor} {w : World} {x : Expr} {target : EvalM (Function × Env)}
      {Γ : Context} {σ : Store} {s : List Int64} {R : Register → Int64} {inner : Code} {m : Machine} :
      C.program.arena.expr? e = some x → target? env x = some target → C.program.Site Γ e →
      C.Coded Γ.inClass e (.load .fp :: inner ++ [.jumpSub]) →
      (View.upTo C.image C.image.size).Embedded ip (.load .fp :: inner ++ [.jumpSub]) → C.Ready env Γ σ s R w →
      C.Anchored σ s env chain (R .fp) → s.length = h → Machine.Shows C.image C.size m ⟨ip, s, σ.heap, R, w.output⟩ →
      jump = ip + inner.length + 1 → Begins e jump ⟨n, env, chain, h, w, .expr e⟩ m

/-- **The call of a stage is performed.** So many steps after the run was at the stage it is about to jump to what is
called. It has not left the code of the call in between, the calls in its arguments apart. -/
structure Performs (S : Stage) (e : ExprRef) (m : Machine) (k : Nat) (m' : Machine) : Prop where
  begins : C.Begins e m'.ip S m
  way : Machine.Nested Machine.Next (· < m'.ip) m k 0 m'

variable {C} {Γ : Context} {e part last : ExprRef} {x : Expr} {i n a ip stop : Nat} {env env' outer : Env}
variable {σ σ' σ'' : Store} {s s' : List Int64} {R R' R'' : Register → Int64} {w w' w₁ w₂ : World} {S : Stage} {c : Config}
variable {code : Code}

theorem Ready.keeps (h : C.Ready env Γ σ s R w) : C.Keeps σ R σ R := ⟨.refl σ, rfl, h.sound, rfl, h.hp⟩

theorem Keeps.trans (h : C.Keeps σ R σ' R') (h' : C.Keeps σ' R' σ'' R'') : C.Keeps σ R σ'' R'' :=
  ⟨h.grows.trans h'.grows, h'.globals.trans h.globals, h'.sound, h'.fp.trans h.fp, h'.hp⟩

/-- Only the registers that evaluation may use have changed. -/
theorem Keeps.update (h : C.Keeps σ R σ' R') {r : Register} (hr : r = .tm ∨ r = .ra) (word : Int64) :
    C.Keeps σ R σ' (Function.update R' r word) := by
  rcases hr with rfl | rfl <;>
    exact ⟨h.grows, h.globals, h.sound, by rw [Function.update_of_ne (by decide), h.fp],
      by rw [Function.update_of_ne (by decide), h.hp]⟩

/-- The machine is ready again when an evaluation is over. -/
theorem Ready.after (h : C.Ready env Γ σ s R w) (hk : C.Keeps σ R σ' R') (hs : s <:+ s')
    (hw : w'.objects = σ'.values) : C.Ready env Γ σ' s' R' w' := by
  obtain ⟨a, hfp, hl⟩ := h.located
  exact ⟨hk.sound, hk.globals ▸ h.globals.trans hs, hw, hk.hp, a, hk.fp.trans hfp, hl.grow hk.grows hs⟩

theorem Opened.ready (h : C.Opened a i env Γ σ s R w) : C.Ready env Γ σ s R w :=
  ⟨h.sound, h.globals, h.objects, h.hp, a, h.fp, h.located⟩

theorem embedded_whole (h : (View.upTo C.image stop).Embedded ip code) : C.image.Embedded ip code :=
  ⟨(View.upTo C.image stop).placed_whole h.1, h.2⟩

/-- Code that has something behind it lies in each part of the code that it does not exceed. -/
theorem embedded_upTo (h : (View.upTo C.image stop).Embedded ip code) {stop' : Nat} (hle : ip + code.length ≤ stop') :
    (View.upTo C.image stop').Embedded ip code := (embedded_whole h).upTo hle

theorem embedded_all (h : (View.upTo C.image stop).Embedded ip code) : (View.upTo C.image C.image.size).Embedded ip code :=
  embedded_upTo h (Nat.le_of_lt h.2)

/-- Where the machine stands is the same for all of the code. -/
theorem Stands.all (h : C.Stands stop S c) : C.Stands C.image.size S c := by
  cases h with
  | expr hs hcode hp hr ha hlen => exact .expr hs hcode (embedded_all hp) hr ha hlen
  | value hs hcode hp hr ha hlen hv => exact .value hs hcode (embedded_all hp) hr ha hlen hv
  | block hregion hcodes hcode hp hr ha hlen hopened =>
    exact .block hregion hcodes hcode (embedded_all hp) hr ha hlen hopened

/-! ## Runs under watch -/

variable (C) in
/-- Where a run began, and at which stages it may be, with all stages to which they lead. -/
structure Watch where
  origin : Machine
  stage : Stage → Prop
  leads : ∀ {S S' : Stage}, stage S → Leads C.program.arena S S' → stage S'

namespace Watch

variable (W : C.Watch)

/-- The machine is about to perform the call of a stage under watch, at which the run has been. -/
def calls (m : Machine) : Prop :=
  ∃ S e m₀ k, W.stage S ∧ Relation.ReflTransGen Machine.Next W.origin m₀ ∧ C.Performs S e m₀ k m

/-- The run under watch, through the code in front of an address. -/
def upTo (stop : Nat) : Course := { View.upTo C.image stop with origin := W.origin, calls := W.calls }

/-- The run under watch, through all of the code. -/
abbrev inside : Course := W.upTo C.image.size

/-- What is evaluated next belongs to a stage under watch. -/
def Told (n : Nat) (env : Env) (σ : Store) (s : List Int64) (fp : Int64) (w : World) (task : Task) : Prop :=
  ∃ chain, C.Anchored σ s env chain fp ∧ W.stage ⟨n, env, chain, s.length, w, task⟩

variable (C) in
/-- All stages are under watch. -/
def every (origin : Machine) : C.Watch := ⟨origin, fun _ => True, fun _ _ => trivial⟩

variable {W} {fp : Int64}

/-- A label stands for the place at which it is defined. -/
theorem labels {j : Nat} {l : String} (h : (W.upTo stop).get? j = some (.label l)) : (W.upTo stop).addressOf? l = some j :=
  ((W.upTo stop).toView.addressOf?_eq l).trans (C.linked.labels ((W.upTo stop).whole_of_get? h))

theorem addressOf?_eq (l : String) : (W.upTo stop).addressOf? l = C.image.addressOf? l :=
  (W.upTo stop).toView.addressOf?_eq l

/-- What a run comes to in front of an address, it comes to in front of a later one. -/
theorem widen {stop' : Nat} {Q : Nat → Machine → Prop} {E : MachineError → List Int64 → Prop} {m : Machine}
    (h : Machine.Comes (W.upTo stop) Q E m) (hle : stop ≤ stop') : Machine.Comes (W.upTo stop') Q E m :=
  Machine.Comes.widen (V := W.upTo stop') h hle

/-- Where all stages are under watch, nothing has to be known. -/
theorem told_every {origin : Machine} {task : Task} (hr : C.Ready env Γ σ s R w)
    (hused : s.length + σ.heap.length ≤ C.size) : (every C origin).Told n env σ s (R .fp) w task := by
  obtain ⟨a, hfp, hl⟩ := hr.located
  obtain ⟨chain, hchain⟩ := hl.exists_anchored hused
  exact ⟨chain, hfp ▸ hchain, trivial⟩

namespace Told

/-- **Operands,** one behind the other. -/
theorem operand {done rest : List ExprRef} {vs : List Value} (h : W.Told (n + 1) env σ s (R .fp) w (.expr e))
    (hx : C.program.arena.expr? e = some x) (hoperands : x.operands = done ++ part :: rest)
    (hdone : done.mapM (expr C.program.arena n env) w = .ok vs w') (hk : C.Keeps σ R σ' R') (hs : s <:+ s')
    (hlen : s'.length = s.length + x.saved + done.length) : W.Told n env σ' s' (R' .fp) w' (.expr part) := by
  obtain ⟨chain, ha, hstage⟩ := h
  rw [hk.fp]
  exact ⟨chain, ha.grow hk.grows hs, hlen ▸ W.leads hstage (.operand hx hoperands hdone)⟩

/-- The first operand, if nothing is kept below it. -/
theorem first {rest : List ExprRef} (h : W.Told (n + 1) env σ s (R .fp) w (.expr e))
    (hx : C.program.arena.expr? e = some x) (hoperands : x.operands = part :: rest) (hsaved : x.saved = 0)
    (hr : C.Ready env Γ σ s R w) : W.Told n env σ s (R .fp) w (.expr part) := by
  have hoperands' : x.operands = [] ++ part :: rest := hoperands
  exact h.operand hx hoperands' rfl hr.keeps (List.suffix_refl s) (by rw [hsaved]; rfl)

/-- The part that is evaluated behind the operand. -/
theorem branch {v : Int64} (h : W.Told (n + 1) env σ s (R .fp) w (.expr e)) (hx : C.program.arena.expr? e = some x)
    (hvs : x.operands.mapM (expr C.program.arena n env) w = .ok [.int v] w') (hbranch : x.branch? v = some part)
    (hk : C.Keeps σ R σ' R') : W.Told n env σ' s (R' .fp) w' (.expr part) := by
  obtain ⟨chain, ha, hstage⟩ := h
  rw [hk.fp]
  exact ⟨chain, ha.grow hk.grows (List.suffix_refl s), W.leads hstage (.branch hx hvs hbranch)⟩

/-- **What is called.** -/
theorem enter {target : EvalM (Function × Env)} {vs : List Value} {f : Function} {words : List Int64} {b : Nat} {ret : Int64}
    (h : W.Told (n + 1) env σ s fp w (.expr e)) (hx : C.program.arena.expr? e = some x)
    (htarget : target? env x = some target) (hvs : x.operands.mapM (expr C.program.arena n env) w = .ok vs w₁)
    (hq : target w₁ = .ok (f, outer) w₂) (hlength : vs.length = f.params.length) (hσ : σ.Grows σ')
    (hwithin : C.Within σ' (words ++ fp :: s) env fp outer (Int64.ofNat b)) (hwords : words.length = vs.length)
    (hused : (words ++ fp :: s).length + σ'.heap.length ≤ C.size)
    (hlink : a + (Int64.ofNat b :: (words ++ fp :: s)).length = C.size) :
    W.Told n (bindParams (.frame outer) (f.params.zip vs.reverse)) σ' (ret :: Int64.ofNat b :: (words ++ fp :: s))
      (Int64.ofNat a) w₂ (.block f.locals f.body) := by
  obtain ⟨chain, ha, hstage⟩ := h
  have houter := hwithin hused chain (ha.grow hσ ((List.suffix_cons fp s).trans (List.suffix_append words _)))
  have hframe := (houter.enter ret hlink).params (f.params.zip vs.reverse)
  have hlen : (words ++ fp :: s).length = s.length + vs.length + 1 := by
    rw [List.length_append, List.length_cons, hwords]
    omega
  refine ⟨_, hframe, ?_⟩
  rw [List.length_cons, List.length_cons, hlen]
  exact W.leads hstage (.enter hx htarget hvs hq hlength)

/-- The initial value of a variable. -/
theorem init {d : DeclRef} {ds : List DeclRef} {v : Variable} (h : W.Told n env σ s fp w (.block (d :: ds) last))
    (hx : C.program.arena.decl? d = some (.varDecl v)) : W.Told n env σ s fp w (.expr v.init) := by
  obtain ⟨chain, ha, hstage⟩ := h
  exact ⟨chain, ha, W.leads hstage (.init hx)⟩

/-- Behind a declaration come the others. -/
theorem declared {d : DeclRef} {ds : List DeclRef} (h : W.Told n env σ s fp w (.block (d :: ds) last))
    (hd : declare C.program.arena (expr C.program.arena n) env d w = .ok env' w') (hσ : σ.Grows σ') (hs : s <:+ s')
    (hlen : s'.length = s.length + 1) : W.Told n env' σ' s' fp w' (.block ds last) := by
  obtain ⟨chain, ha, hstage⟩ := h
  exact ⟨chain, (ha.grow hσ hs).declare hd, hlen ▸ W.leads hstage (.declared hd)⟩

/-- Behind them all comes what is evaluated last. -/
theorem declares {ds : List DeclRef} (h : W.Told n env σ s fp w (.block ds last))
    (hds : ds.foldlM (declare C.program.arena (expr C.program.arena n)) env w = .ok env' w') (hσ : σ.Grows σ') (hs : s <:+ s')
    (hlen : s'.length = s.length + ds.length) : W.Told n env' σ' s' fp w' (.expr last) := by
  obtain ⟨chain, ha, hstage⟩ := h
  rw [Told, hlen]
  clear hlen
  generalize s.length = height at hstage ⊢
  refine ⟨chain, ?_⟩
  induction ds generalizing env w height with
  | nil =>
    cases hds
    exact ⟨ha.grow hσ hs, W.leads hstage .body⟩
  | cons d ds ih =>
    rw [List.foldlM_cons] at hds
    obtain ⟨env₁, w₁, hd, hds⟩ := exists_of_bind hds
    have h := ih hds (ha.declare hd) (height + 1) (W.leads hstage (.declared hd))
    rwa [Nat.add_assoc, Nat.add_comm 1] at h

end Told

end Watch

end Setting

end Reference

end Fool
