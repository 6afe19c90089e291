import Fool.Proofs.Machine.Will
import Fool.Proofs.Semantics.Evaluator

/-!
# Runs that follow an evaluation

`Follows H r Q c` says that the machine, run from `c`, does what the evaluation with the result `r` did: if that gave a
value, the run comes to a configuration with `Q`; if it stopped for a division by zero or a null receiver, the run stops
with the fault for it. Nothing is asked of an ill-formed program. An evaluation that ran out of fuel counts if `H` holds:
then the run does not go on for ever either. In each case memory may turn out to be too small first.

`follows_bind` puts evaluations in a row. It needs that what is printed stays printed (`Prints`).
-/

namespace Fool

namespace Reference

/-! ## What is printed -/

section

variable {α β : Type}

/-- The world in which an evaluation ends. -/
def world : EStateM.Result Stop World α → World
  | .ok _ w => w
  | .error _ w => w

/-- What is printed is printed behind what was printed before. -/
def Prints (m : EvalM α) : Prop := ∀ w, w.output <+: (world (m w)).output

theorem prints_pure (x : α) : Prints (pure x) := fun _ => List.prefix_refl _

theorem prints_throw (e : Stop) : Prints (throw e : EvalM α) := fun _ => List.prefix_refl _

theorem prints_get : Prints (get : EvalM World) := fun _ => List.prefix_refl _

theorem prints_bind {m : EvalM α} {f : α → EvalM β} (hm : Prints m) (hf : ∀ x, Prints (f x)) : Prints (m >>= f) := by
  intro w
  have h := hm w
  show w.output <+: (world (EStateM.bind m f w)).output
  unfold EStateM.bind
  cases hrun : m w with
  | ok x w' =>
    rw [hrun] at h
    exact h.trans (hf x w')
  | error e w' =>
    rw [hrun] at h
    exact h

theorem prints_mapM {f : α → EvalM β} (h : ∀ x, Prints (f x)) : ∀ xs : List α, Prints (xs.mapM f)
  | [] => prints_pure []
  | x :: xs => by
    rw [List.mapM_cons]
    exact prints_bind (h x) fun y => prints_bind (prints_mapM h xs) fun ys => prints_pure _

theorem prints_foldlM {f : β → α → EvalM β} (h : ∀ y x, Prints (f y x)) : ∀ (xs : List α) (y : β), Prints (xs.foldlM f y)
  | [], y => prints_pure y
  | x :: xs, y => by
    rw [List.foldlM_cons]
    exact prints_bind (h y x) fun y' => prints_foldlM h xs y'

theorem prints_number (v : Value) : Prints (number v) := by
  cases v <;> first | exact prints_pure _ | exact prints_throw _

theorem prints_same (left right : Value) : Prints (same left right) := by
  unfold same
  split
  · exact prints_pure _
  · exact prints_pure _
  · split
    · exact prints_pure _
    · exact prints_throw _
  · split
    · exact prints_pure _
    · exact prints_throw _
  · exact prints_throw _

theorem prints_onNumbers (left right : Value) {f : Int64 → Int64 → EvalM Value} (h : ∀ x y, Prints (f x y)) :
    Prints (onNumbers left right f) :=
  prints_bind (prints_number left) fun x => prints_bind (prints_number right) fun y => h x y

theorem prints_operate (op : Operator) (left right : Value) : Prints (operate op left right) := by
  cases op with
  | div =>
    refine prints_onNumbers left right fun x y => ?_
    split
    · exact prints_throw _
    · exact prints_pure _
  | equal => exact prints_bind (prints_same left right) fun b => prints_pure _
  | _ => exact prints_onNumbers left right fun x y => prints_pure _

theorem prints_field (id : Nat) (c : Class) (name : Symbol) : Prints (field id c name) := by
  refine prints_bind prints_get fun w => ?_
  split
  · exact prints_pure _
  · exact prints_throw _

theorem prints_held (env : Env) (name : Symbol) : Prints (held env name) := by
  unfold held
  split
  · exact prints_pure _
  · exact prints_field _ _ _
  · exact prints_throw _

theorem prints_nameValue (env : Env) (name : Symbol) : Prints (nameValue env name) := by
  unfold nameValue
  split
  · exact prints_pure _
  · exact prints_pure _
  · exact prints_bind (prints_held env name) fun q => prints_pure _

theorem prints_asFunction (env : Env) (name : Symbol) : Prints (callee.asFunction env name) := by
  refine prints_bind (prints_held env name) fun q => ?_
  split
  · exact prints_pure _
  · exact prints_throw _

theorem prints_callee (env : Env) (name : Symbol) : Prints (callee env name) := by
  unfold callee
  split
  · exact prints_pure _
  · split
    · exact prints_pure _
    · exact prints_asFunction env name
  · exact prints_asFunction env name

theorem prints_methodCallee (env : Env) (receiver method : Symbol) : Prints (methodCallee env receiver method) := by
  refine prints_bind (prints_held env receiver) fun q => ?_
  split
  · split <;> exact prints_throw _
  · refine prints_bind prints_get fun w => ?_
    split
    · exact prints_throw _
    · split
      · split
        · exact prints_pure _
        · exact prints_throw _
      · exact prints_throw _
  · exact prints_throw _

theorem prints_construct (env : Env) (name : Symbol) (values : List Value) : Prints (construct env name values) := by
  unfold construct
  split
  · exact prints_throw _
  · split
    · exact fun w => List.prefix_refl _
    · exact prints_throw _

theorem prints_printed (v : Int64) : Prints (printed v) := fun _ => List.prefix_append _ _

variable {arena : Arena} {eval : Env → ExprRef → EvalM Value}

theorem prints_declare (h : ∀ env e, Prints (eval env e)) (env : Env) (d : DeclRef) :
    Prints (declare arena eval env d) := by
  unfold declare
  split
  · exact prints_bind (h env _) fun v => prints_pure _
  · exact prints_pure _
  · exact prints_pure _
  · exact prints_throw _

theorem prints_enter (h : ∀ env e, Prints (eval env e)) (f : Function) (env : Env) (args : List Value) :
    Prints (enter arena eval f env args) := by
  unfold enter
  split
  · exact prints_bind (prints_foldlM (prints_declare h) _ _) fun env => h env _
  · exact prints_throw _

/-- **Evaluation never takes back what has been printed.** -/
theorem prints_expr (n : Nat) (env : Env) (e : ExprRef) : Prints (expr arena n env e) := by
  induction n generalizing env e with
  | zero => exact prints_throw _
  | succ n ih =>
    rw [expr]
    split
    · exact prints_throw _
    · exact prints_pure _
    · exact prints_pure _
    · exact prints_pure _
    · split
      · refine prints_bind (ih _ _) fun v => prints_bind (prints_number v) fun x => ?_
        split
        · exact prints_pure _
        · exact prints_bind (ih _ _) fun v => prints_bind (prints_number v) fun y => prints_pure _
      · exact prints_bind (ih _ _) fun y => prints_bind (ih _ _) fun x => prints_operate _ x y
      · exact prints_bind (ih _ _) fun x => prints_bind (ih _ _) fun y => prints_operate _ x y
    · exact prints_bind (ih _ _) fun v => prints_bind (prints_number v) fun x => prints_pure _
    · refine prints_bind (ih _ _) fun v => prints_bind (prints_number v) fun x => ?_
      split <;> exact ih _ _
    · exact prints_bind (ih _ _) fun v => prints_bind (prints_number v) fun x => prints_bind (prints_printed x)
        fun _ => prints_pure _
    · exact prints_nameValue _ _
    · exact prints_bind (prints_mapM (ih _) _) fun values => prints_bind (prints_callee _ _) fun q => prints_enter ih _ _ _
    · exact prints_bind (prints_mapM (ih _) _) fun values => prints_bind (prints_methodCallee _ _ _)
        fun q => prints_enter ih _ _ _
    · exact prints_bind (prints_mapM (ih _) _) fun values => prints_construct _ _ _

end

/-! ## Runs and evaluations -/

section

variable {α β : Type}

/-- The result says how the machine runs. -/
def Settled (H : Prop) : EStateM.Result Stop World α → Prop
  | .error .illFormed _ => False
  | .error .outOfFuel _ => H
  | _ => True

/-- A fault of the machine after an evaluation with the result `r`: the fault for a stop, or that memory is too small. -/
def Allowed (r : EStateM.Result Stop World α) (e : MachineError) (out : List Int64) : Prop :=
  (∃ ip, e = .stackOverflow ip) ∧ out <+: (world r).output ∨
    match r with
    | .error .divisionByZero w => (∃ ip, e = .divisionByZero ip) ∧ out = w.output
    | .error .nullReceiver w => (∃ ip, e = .invalidAddress (-1) ip) ∧ out = w.output
    | _ => False

/-- The configuration behind an evaluation that gave a value. -/
def Post (Q : α → World → Config → Prop) : EStateM.Result Stop World α → Config → Prop
  | .ok x w => Q x w
  | .error _ _ => fun _ => False

/-- **The machine runs as the evaluation says.** -/
def Follows (V : Course) (M : Nat) (H : Prop) (r : EStateM.Result Stop World α) (Q : α → World → Config → Prop)
    (c : Config) : Prop := Settled H r → Will V M (Post Q r) (Allowed r) c

variable {V : Course} {M : Nat} {H H' : Prop} {r : EStateM.Result Stop World α} {c : Config} {w : World}
variable {Q : α → World → Config → Prop} {Q' : β → World → Config → Prop}

theorem Settled.mono (h : Settled H r) (hH : H → H') : Settled H' r := by
  cases r with
  | ok x w => trivial
  | error e w =>
    cases e with
    | outOfFuel => exact hH h
    | illFormed => exact h
    | divisionByZero => trivial
    | nullReceiver => trivial

/-- Less may be asked of the fuel. -/
theorem Follows.weaken (h : Follows V M H' r Q c) (hH : H → H') : Follows V M H r Q c := fun hs =>
  h (hs.mono hH)

/-- Behind the evaluation the machine may go on. -/
theorem Follows.onward {Q' : α → World → Config → Prop} (h : Follows V M H r Q c)
    (h' : ∀ x w c', Q x w c' → Will V M (Q' x w) (Allowed (.ok x w : EStateM.Result Stop World α)) c') :
    Follows V M H r Q' c := fun hs =>
  (h hs).bind (fun _ _ he => he) fun c' hq => by
    cases r with
    | ok x w => exact h' x w c' hq
    | error e w => exact hq.elim

/-- More may be said of what is reached. -/
theorem Follows.mono {Q' : α → World → Config → Prop} (h : Follows V M H r Q c)
    (hQ : ∀ x w c, Q x w c → Q' x w c) : Follows V M H r Q' c :=
  h.onward fun x w c' hq => will_done (hQ x w c' hq)

theorem allowed_overflow {m : EvalM α} (hm : Prints m) (ip : Nat) : Allowed (m w) (.stackOverflow ip) w.output :=
  Or.inl ⟨⟨ip, rfl⟩, hm w⟩

theorem follows_pure {x : α} (h : Q x w c) : Follows V M H ((pure x : EvalM α) w) Q c := fun _ => will_done h

theorem follows_illFormed : Follows V M H ((throw .illFormed : EvalM α) w) Q c := fun hs => hs.elim

/-- **When the run first arrives behind the part of the code,** the evaluation has given a value and the machine is as is said
of it, unless a table has been overwritten on the way. -/
theorem Follows.arrives {m m' : Machine} {k : Nat} (h : Follows V M H r Q c) (hset : Settled H r) (hb : V.Begun m)
    (hm : Machine.Shows V.whole M m c) (hQ : ∀ x w c', Q x w c' → c'.ip = V.stop) (ha : m.Arrives V.stop k m') :
    (∃ x w c', r = .ok x w ∧ Machine.Shows V.whole M m' c' ∧ Q x w c') ∨ m.Meets k Machine.Collides := by
  have hpost : ∀ c', Post Q r c' → c'.ip = V.stop := by
    cases r with
    | ok x w => exact fun c' => hQ x w c'
    | error stop w => exact fun c' => False.elim
  refine ((h hset m hb hm).arrives hpost ha).imp_left ?_
  rintro ⟨c', hm', hq⟩
  cases r with
  | ok x w => exact ⟨x, w, c', rfl, hm', hq⟩
  | error stop w => exact hq.elim

/-! ## One behind another -/

section Bind

variable {m : EvalM α} {f : α → EvalM β} {e : MachineError} {out : List Int64}

/-- What says how the machine runs does so of its first part. -/
theorem Settled.of_bind (h : Settled H ((m >>= f) w)) : Settled H (m w) := by
  change Settled H (EStateM.bind m f w) at h
  unfold EStateM.bind at h
  cases hrun : m w with
  | ok x w' => trivial
  | error stop w' =>
    rw [hrun] at h
    cases stop <;> exact h

/-- A fault that the first part allows is allowed. -/
theorem Allowed.bind (hf : ∀ x, Prints (f x)) (h : Allowed (m w) e out) : Allowed ((m >>= f) w) e out := by
  show Allowed (EStateM.bind m f w) e out
  unfold EStateM.bind
  cases hrun : m w with
  | ok x w' =>
    rw [hrun] at h
    obtain ⟨hover, hout⟩ := h.resolve_right id
    exact .inl ⟨hover, hout.trans (hf x w')⟩
  | error stop w' =>
    rw [hrun] at h
    cases stop <;> exact h

/-- **One evaluation behind another.** -/
theorem follows_bind (hf : ∀ x, Prints (f x)) (h : Follows V M H (m w) Q c)
    (h' : ∀ x w' c', m w = .ok x w' → Q x w' c' → Follows V M H (f x w') Q' c') :
    Follows V M H ((m >>= f) w) Q' c := by
  intro hs
  refine (h hs.of_bind).bind (fun _ _ => .bind hf) fun c' hq => ?_
  cases hrun : m w with
  | ok x w' =>
    rw [hrun] at hq
    rw [bind_of_ok hrun] at hs ⊢
    exact h' x w' c' hrun hq hs
  | error e w' =>
    rw [hrun] at hq
    exact hq.elim

end Bind

end

end Reference

end Fool
