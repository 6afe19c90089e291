import Fool.Proofs.Semantics.Watch

/-!
# Code that follows the evaluation of expressions

`Gives` says what is left behind the code of an expression: the value on top of what was on the stack, the frame as it
was, and a memory that has only grown. `Watch.Simulates n` is the statement to be proved of all expressions by induction on
the fuel `n`, of runs under watch through any part of the code.

Fuel is `Enough` if it exceeds the number of the expression in each frame for which there can be room: a part of an
expression has a smaller number, and a call takes away a cell.
-/

namespace Fool

/-- The operands of an expression are parts of it. -/
theorem Expr.mem_parts {x : Expr} {part : ExprRef} (h : part ∈ x.operands) : part ∈ x.parts := by
  cases x with
  | binary op left right =>
    cases op <;> simp only [operands, parts, List.mem_cons, List.not_mem_nil, or_false] at h ⊢ <;> tauto
  | call | methodCall => simpa [operands, parts] using h
  | _ => simp_all [operands, parts]

namespace Reference

namespace Setting

variable (C : Setting)

/-- The value is on the stack, and the machine goes on at the address. -/
def Gives (σ : Store) (s : List Int64) (R : Register → Int64) (next : Nat) (v : Value) (w : World) (c : Config) : Prop :=
  ∃ σ' R' word, C.Keeps σ R σ' R' ∧ w.objects = σ'.values ∧ C.Shown σ' v word ∧
    c = ⟨next, word :: s, σ'.heap, R', w.output⟩

/-- The fuel suffices for an expression above the stack. -/
def Enough (n : Nat) (e : ExprRef) (s : List Int64) : Prop :=
  (C.size - s.length) * (C.program.arena.nodes.size + 1) + e.index + 1 ≤ n

namespace Watch

variable {C} (W : C.Watch)

/-- The evaluation of the expression is followed by the code, which begins at the address. -/
def Followed (stop n : Nat) (env : Env) (e : ExprRef) (code : Code) (ip : Nat) (σ : Store) (s : List Int64)
    (R : Register → Int64) (w : World) : Prop :=
  Follows (W.upTo stop) C.size (C.Enough n e s) (expr C.program.arena n env e w) (C.Gives σ s R (ip + code.length))
    ⟨ip, s, σ.heap, R, w.output⟩

/-- **With this fuel, evaluation is followed by code,** wherever it stands. -/
def Simulates (n : Nat) : Prop :=
  ∀ {Γ : Context} {e : ExprRef} {code : Code} {stop ip : Nat} {env : Env} {σ : Store} {s : List Int64}
    {R : Register → Int64} {w : World}, C.program.Site Γ e → C.Coded Γ.inClass e code → (W.upTo stop).Embedded ip code →
    C.Ready env Γ σ s R w → W.Told n env σ s (R .fp) w (.expr e) → W.Followed stop n env e code ip σ s R w

end Watch

variable {C} {W : C.Watch} {Γ : Context} {e part : ExprRef} {x : Expr} {code : Code} {stop ip n : Nat} {env : Env}
variable {σ σ' σ'' : Store} {s s' : List Int64} {R R' R'' : Register → Int64} {w w' : World} {v : Value} {word : Int64}

theorem gives_self (h : C.Ready env Γ σ s R w) (hv : C.Shown σ v word) :
    C.Gives σ s R ip v w ⟨ip, word :: s, σ.heap, R, w.output⟩ := ⟨σ, R, word, h.keeps, h.objects, hv, rfl⟩

theorem Gives.after {c : Config} {next next' : Nat} (h : C.Gives σ' s R' next v w c) (hk : C.Keeps σ R σ' R')
    (hnext : next = next') : C.Gives σ s R next' v w c := by
  obtain ⟨σ'', R'', word, hk', hrest⟩ := h
  exact ⟨σ'', R'', word, hk.trans hk', hnext ▸ hrest⟩

/-- A part of an expression is an expression of the same place. -/
theorem site_part (hs : C.program.Site Γ e) (hx : C.program.arena.expr? e = some x) (hpart : part ∈ x.parts) :
    C.program.Site Γ part := by
  have hpost := C.faultless.placed.postordered
  cases hs with
  | body hr he => exact .body hr (hpost.part_mem_walk he hx hpart)
  | init hr hd he => exact .init hr hd (hpost.part_mem_walk he hx hpart)

/-- A part of an expression is evaluated above what is on the stack. -/
theorem Watch.Simulates.of_part (ih : W.Simulates n) (hs : C.program.Site Γ e) (hx : C.program.arena.expr? e = some x)
    (hpart : part ∈ x.parts) (hcode : C.Coded Γ.inClass part code) (hp : (W.upTo stop).Embedded ip code)
    (hr : C.Ready env Γ σ s' R w) (ht : W.Told n env σ s' (R .fp) w (.expr part)) (hle : s.length ≤ s'.length) :
    Follows (W.upTo stop) C.size (C.Enough (n + 1) e s) (expr C.program.arena n env part w)
      (C.Gives σ s' R (ip + code.length)) ⟨ip, s', σ.heap, R, w.output⟩ := by
  refine (ih (site_part hs hx hpart) hcode hp hr ht).weaken fun h => ?_
  have hlt : part.index < e.index := (C.faultless.placed.postordered.part_bounds hx hpart).2.1
  have hmul : (C.size - s'.length) * (C.program.arena.nodes.size + 1) ≤
      (C.size - s.length) * (C.program.arena.nodes.size + 1) := Nat.mul_le_mul_right _ (by omega)
  unfold Enough at *
  omega

/-! ## Numbers -/

section Numbers

variable {H : Prop} {Q : Value → World → Config → Prop} {c : Config} {left right : Value} {wl wr : Int64}

theorem follows_number {f : Int64 → EvalM Value} (h : ∀ x, v = .int x → Follows (W.upTo stop) C.size H (f x w) Q c) :
    Follows (W.upTo stop) C.size H ((number v >>= f) w) Q c := by
  cases v with
  | int x => exact h x rfl
  | _ => exact follows_illFormed

theorem follows_onNumbers {f : Int64 → Int64 → EvalM Value}
    (h : ∀ x y, left = .int x → right = .int y → Follows (W.upTo stop) C.size H (f x y w) Q c) :
    Follows (W.upTo stop) C.size H (onNumbers left right f w) Q c :=
  follows_number fun x hx => follows_number fun y hy => h x y hx hy

end Numbers

/-! ## Operators -/

section Operators

variable {left right : ExprRef} {op : Operator} {first second tail : Code}

theorem operate_of_arith? {o : Arith} (h : op.arith? = some o) (x y : Value) : operate op x y =
    onNumbers x y fun x y => match o.result? x y with
      | some z => return .int z
      | none => throw .divisionByZero := by
  cases op <;> cases h <;> try rfl
  refine congrArg (onNumbers x y) (funext fun x => funext fun y => ?_)
  by_cases hy : y = 0 <;> simp [Arith.result?, hy]

theorem follows_arith {o : Arith} {H : Prop} {x y : Value} {wx wy : Int64} (ho : op.arith? = some o)
    (hr : C.Ready env Γ σ s R w) (hi : (W.upTo stop).get? ip = some (.arith o)) (hx : C.Shown σ x wx) (hy : C.Shown σ y wy) :
    Follows (W.upTo stop) C.size H (operate op x y w) (C.Gives σ s R (ip + 1)) ⟨ip, wy :: wx :: s, σ.heap, R, w.output⟩ := by
  rw [operate_of_arith? ho]
  refine follows_onNumbers fun x y hx' hy' => ?_
  subst hx' hy'
  cases hx
  cases hy
  cases happly : o.result? wx wy with
  | some z => exact fun _ => will_arith hi happly (low_of_eq hr.hp) (will_done (gives_self hr .int))
  | none =>
    obtain ⟨rfl, rfl⟩ : o = .div ∧ wy = 0 := by
      cases o <;> simp [Arith.result?] at happly
      exact ⟨rfl, happly⟩
    exact fun _ => will_divide_by_zero hi (.inr ⟨⟨ip, rfl⟩, rfl⟩)

theorem Sound.address_lt {id a : Nat} {o : Object} (hs : C.Sound σ) (ho : σ.objects[id]? = some (o, a)) :
    a < σ.heap.length := by
  obtain ⟨T, -, hT, -⟩ := (hs.objects ho).table
  exact (List.getElem?_eq_some_iff.1 hT).1

/-- Objects are the same just if their addresses are. -/
theorem Sound.address_iff (hs : C.Sound σ) (hle : σ.heap.length ≤ C.size) {i j a b : Nat} {o o' : Object}
    (hi : σ.objects[i]? = some (o, a)) (hj : σ.objects[j]? = some (o', b)) : i = j ↔ Int64.ofNat a = Int64.ofNat b := by
  constructor
  · rintro rfl
    rw [hi] at hj
    cases hj
    rfl
  · intro h
    have ha := hs.address_lt hi
    have hb := hs.address_lt hj
    have hbound := C.bound
    obtain rfl := Address.ofNat_injective (by omega) (by omega) h
    have hlt : i < (σ.objects.map (·.2)).length := by
      rw [List.length_map]
      exact (List.getElem?_eq_some_iff.1 hi).1
    refine (List.getElem?_inj hlt hs.distinct).1 ?_
    rw [List.getElem?_map, List.getElem?_map, hi, hj]
    rfl

/-- An object is not null. -/
theorem Sound.ne_null (hs : C.Sound σ) (hle : σ.heap.length ≤ C.size) {i a : Nat} {o : Object}
    (hi : σ.objects[i]? = some (o, a)) : Int64.ofNat a ≠ -1 := by
  have ha := hs.address_lt hi
  have hbound := C.bound
  exact Address.ofNat_ne_neg_one (by omega)

/-- **Values are the same just if their words are equal.** -/
theorem same_eq {x y : Value} {wx wy : Int64} (hs : C.Sound σ) (hle : σ.heap.length ≤ C.size) (hx : C.Shown σ x wx)
    (hy : C.Shown σ y wy) : same x y w = .error .illFormed w ∨ same x y w = .ok (decide (wx = wy)) w := by
  have hnull {v : Int64} {b : Bool} (hb : v = -1 → b = false) :
      (if v = -1 then return false else throw .illFormed : EvalM Bool) w = .error .illFormed w ∨
        (if v = -1 then return false else throw .illFormed : EvalM Bool) w = .ok b w := by
    split
    · rw [hb ‹_›]
      exact .inr rfl
    · exact .inl rfl
  cases hx with
  | int =>
    cases hy with
    | int => exact .inr rfl
    | object hj =>
      exact hnull fun hv => decide_eq_false fun h => hs.ne_null hle hj (h.symm.trans hv)
    | func => exact .inl rfl
    | cls => exact .inl rfl
  | object hi =>
    cases hy with
    | int => exact hnull fun hv => decide_eq_false fun h => hs.ne_null hle hi (h.trans hv)
    | object hj =>
      exact .inr (congrArg (EStateM.Result.ok · w) (decide_eq_decide.2 (hs.address_iff hle hi hj)))
    | func => exact .inl rfl
    | cls => exact .inl rfl
  | func => cases hy <;> exact .inl rfl
  | cls => cases hy <;> exact .inl rfl

/-- A comparison leaves its truth value. -/
theorem follows_truth {H : Prop} {on : Comparison} {wx wy : Int64} {onTrue done : String} (hr : C.Ready env Γ σ s R w)
    (hp : (W.upTo stop).Placed ip (.branch on onTrue :: Code.truth onTrue done)) :
    Follows (W.upTo stop) C.size H ((pure (truth (on.holds wx wy)) : EvalM Value) w) (C.Gives σ s R (ip + 6))
      ⟨ip, wy :: wx :: s, σ.heap, R, w.output⟩ := by
  intro _
  refine will_truth Watch.labels hp hr.hp (will_done ?_)
  exact gives_self hr .int

theorem follows_comparison {H : Prop} {on : Comparison} {x y : Value} {wx wy : Int64} {onTrue done : String}
    (ho : op.comparison? = some on) (hne : op ≠ .greaterEqual) (hr : C.Ready env Γ σ s R w)
    (hp : (W.upTo stop).Placed ip (.branch on onTrue :: Code.truth onTrue done)) (hx : C.Shown σ x wx) (hy : C.Shown σ y wy) :
    Follows (W.upTo stop) C.size H (operate op x y w) (C.Gives σ s R (ip + 6)) ⟨ip, wy :: wx :: s, σ.heap, R, w.output⟩ := by
  cases op with
  | equal =>
    cases ho
    intro hset
    refine will_of_used fun hused => ?_
    simp only [Config.used] at hused
    have heq : operate .equal x y w = EStateM.bind (same x y) (fun b => pure (truth b)) w := rfl
    unfold EStateM.bind at heq
    rcases same_eq (w := w) hr.sound (by omega) hx hy with hsame | hsame
    · rw [hsame] at heq
      rw [heq] at hset
      exact hset.elim
    · rw [hsame] at heq
      rw [heq] at hset ⊢
      exact follows_truth hr hp hset
  | lessEqual =>
    cases ho
    refine follows_onNumbers fun x y hx' hy' => ?_
    subst hx' hy'
    cases hx
    cases hy
    exact follows_truth hr hp
  | greaterEqual => exact absurd rfl hne
  | _ => cases ho

end Operators

end Setting

end Reference

end Fool
