import Fool.Proofs.Binding.Complete
import Fool.Proofs.Semantics.Frames

/-!
# Code that follows calls
-/

namespace Fool

namespace Reference

namespace Setting

variable {C : Setting} {W : C.Watch} {Γ : Context} {e : ExprRef} {x : Expr} {stop ip n next : Nat} {env : Env}
variable {σ σ' : Store} {s s' : List Int64} {R R' : Register → Int64} {w w' : World} {code : Code}

/-! ## Arguments -/

variable (C) in
/-- The values are on the stack, the last on top, and the machine goes on at the address. -/
def GivesAll (σ : Store) (s : List Int64) (R : Register → Int64) (next : Nat) (vs : List Value) (w : World) (c : Config) :
    Prop :=
  ∃ σ' R' words, C.Keeps σ R σ' R' ∧ w.objects = σ'.values ∧ List.Forall₂ (C.Shown σ') vs words ∧
    c = ⟨next, words.reverse ++ s, σ'.heap, R', w.output⟩

/-- Operands are evaluated one behind the other, behind those that have been. -/
theorem follows_args {done es : List ExprRef} {vs : List Value} {codes : List Code} {σ₀ : Store} {R₀ : Register → Int64}
    {w₀ : World} (ih : W.Simulates n) (hs : C.program.Site Γ e) (hx : C.program.arena.expr? e = some x)
    (hoperands : ∃ rest, x.operands = done ++ es ++ rest) (ht : W.Told (n + 1) env σ₀ s (R₀ .fp) w₀ (.expr e))
    (hdone : done.mapM (expr C.program.arena n env) w₀ = .ok vs w)
    (hk₀ : C.Keeps σ₀ R₀ σ R) (hs' : s <:+ s') (hlen : s'.length = s.length + x.saved + done.length)
    (hcodes : List.Forall₂ (C.Coded Γ.inClass) es codes) (hp : (W.upTo stop).Embedded ip codes.flatten)
    (hr : C.Ready env Γ σ s' R w) :
    Follows (W.upTo stop) C.size (C.Enough (n + 1) e s) (es.mapM (expr C.program.arena n env) w)
      (C.GivesAll σ s' R (ip + codes.flatten.length)) ⟨ip, s', σ.heap, R, w.output⟩ := by
  induction hcodes generalizing done vs σ s' R w ip with
  | nil => exact follows_pure ⟨σ, R, [], hr.keeps, hr.objects, .nil, rfl⟩
  | @cons part code es codes hcode _ hrest =>
    obtain ⟨rest, hoperands⟩ := hoperands
    rw [List.flatten_cons] at hp ⊢
    obtain ⟨hp, hp'⟩ := View.embedded_append.1 hp
    rw [List.mapM_cons]
    have hprints : Prints (es.mapM (expr C.program.arena n env)) := prints_mapM (prints_expr n env) es
    have hpart : x.operands = done ++ part :: (es ++ rest) := by rw [hoperands, List.append_assoc, List.cons_append]
    have hmem : part ∈ x.parts := Expr.mem_parts (by simp [hpart])
    refine follows_part ih hs hx hmem hcode hp hr (ht.operand hx hpart hdone hk₀ hs' hlen) hs'.length_le
      (fun v => prints_bind hprints fun vs => prints_pure _) fun v w₁ σ₁ R₁ word hrun hk hw hv => ?_
    have hr' := hr.after hk (List.suffix_cons word s') hw
    refine follows_bind (fun vs => prints_pure _) (hrest ⟨rest, ?_⟩ (mapM_concat_of_ok hdone hrun) (hk₀.trans hk) (hs'.trans (List.suffix_cons word s')) ?_ hp' hr') ?_
    · rw [hpart, List.append_assoc done, List.append_assoc]
      rfl
    · rw [List.length_cons, hlen, List.length_append, List.length_singleton, ← Nat.add_assoc]
    · rintro vs w₂ c - ⟨σ₂, R₂, words, hk', hw', hvs, rfl⟩
      refine follows_pure ⟨σ₂, R₂, word :: words, hk.trans hk', hw', .cons (hv.grow hk'.grows) hvs, ?_⟩
      rw [List.reverse_cons, List.append_assoc, List.singleton_append, List.length_append, Nat.add_assoc]

/-! ## Functions -/

/-- The place of a parameter behind others. -/
theorem offset_param {done : List TypedName} {y : TypedName} (h : ((Declared.members .param done).map (·.name)).Nodup) :
    Block.offset .function (Declared.members .param done) ⟨y.name, .param, y.ty.checked⟩ = done.length + 1 := by
  rw [Block.offset_eq_place h]
  have hcount : ((Declared.members .param done).countP fun d => d.kind.takesSlot == EntryKind.param.takesSlot) =
      done.length := by
    rw [List.countP_eq_length.2 fun d hd => ?_, Declared.members, List.length_map]
    rw [Declared.takesSlot_members d hd, beq_self_eq_true]
  rw [hcount]
  simp only [Block.place, Block.firstSlot, EntryKind.takesSlot, if_true]
  omega

/-- The arguments of a call become the values of the parameters. -/
theorem located_params {a : Nat} {ps : List TypedName} {vs : List Value} {words : List Int64} (done : List TypedName)
    (hΓ : Γ ≠ []) (hvs : List.Forall₂ (C.Shown σ) vs words) (hlength : vs.length = ps.length)
    (hdistinct : ((Declared.members .param (done ++ ps)).map (·.name)).Nodup)
    (hheld : ∀ (i : Nat) (word : Int64), words[i]? = some word → C.Holds σ s a ((done.length + i + 1 : Nat) : Int) word)
    (hl : C.Located σ s env (⟨.function, Declared.members .param done⟩ :: Γ) a) :
    C.Located σ s (bindParams env (ps.zip vs)) (⟨.function, Declared.members .param (done ++ ps)⟩ :: Γ) a := by
  induction hvs generalizing ps done env with
  | nil =>
    obtain rfl := List.length_eq_zero_iff.1 hlength.symm
    simpa [bindParams] using hl
  | @cons v word vs words hv _ ih =>
    cases ps with
    | nil => cases hlength
    | cons y ps =>
      have hdone : ((Declared.members .param done).map (·.name)).Nodup :=
        hdistinct.sublist (((List.sublist_append_left done _).map _).map _)
      rw [List.append_cons] at hdistinct ⊢
      have hstack : σ.stack s Γ = s := by
        cases Γ with
        | nil => exact absurd rfl hΓ
        | cons b Γ => rfl
      have hfirst := hheld 0 word rfl
      refine ih (done ++ [y]) (Nat.succ.inj hlength) hdistinct (fun i word' hi => ?_) ?_
      · have := hheld (i + 1) word' hi
        rwa [List.length_append, List.length_singleton, Nat.add_right_comm _ 1 i]
      · have hblock : Block.declare ⟨.function, Declared.members .param done⟩ ⟨y.name, .param, y.ty.checked⟩ =
            ⟨.function, Declared.members .param (done ++ [y])⟩ := by
          simp [Block.declare, Declared.members]
        rw [← hblock]
        refine .value hl (.inr rfl) ?_ hv
        rw [offset_param hdone, hstack]
        exact_mod_cast hfirst

/-- Around the access link, which lies at the address `a`, the arguments of a call lie one above the other. -/
theorem holds_argument {words : List Int64} {a i : Nat} {link word : Int64} (hi : words[i]? = some word)
    (ha : a + (link :: (words ++ s)).length = C.size) : C.Holds σ (link :: (words ++ s)) a (i + 1) word := by
  have hlt := (List.getElem?_eq_some_iff.1 hi).1
  refine ⟨a + (i + 1), by push_cast; rfl, .inr ⟨i + 1, ?_, by omega⟩⟩
  rwa [List.getElem?_cons_succ, List.getElem?_append_left hlt]

/-- The frame of a function is opened: the arguments are the values of the parameters. -/
theorem opened_enter {f : Function} {outer : Env} {args : List Value} {words : List Int64} {a b ret : Nat}
    (hregion : C.program.Region (f.block :: Γ) f.locals f.body) (hl : C.Located σ (words ++ s) outer Γ b) (hs : C.Sound σ)
    (hg : σ.globals <:+ s) (hw : w.objects = σ.values) (hhp : R .hp = Int64.ofNat σ.heap.length)
    (hargs : List.Forall₂ (C.Shown σ) args words) (hlength : args.length = f.params.length)
    (ha : a + (Int64.ofNat b :: (words ++ s)).length = C.size) (hfp : R .fp = Int64.ofNat a) :
    C.Opened a 0 (bindParams (.frame outer) (f.params.zip args)) (f.block :: Γ) σ
      (Int64.ofNat ret :: Int64.ofNat b :: (words ++ s)) R w := by
  have hsuffix : words ++ s <:+ Int64.ofNat ret :: Int64.ofNat b :: (words ++ s) :=
    (List.suffix_cons _ _).trans (List.suffix_cons _ _)
  have hdistinct := ((C.faultless.clean_bind hregion).distinct _ List.mem_cons_self).sublist
    ((List.sublist_append_left f.block.declared _).map _)
  refine ⟨hs, (hg.trans (List.suffix_append words s)).trans hsuffix, hw, hhp, hfp, ?_, ?_, fun hone => ?_⟩
  · refine located_params [] hl.ne_nil hargs hlength hdistinct (fun i word hi => ?_) ?_
    · simpa using (holds_argument hi ha).grow (.refl σ) (List.suffix_cons (Int64.ofNat ret) _)
    · simp only [List.length_cons] at ha
      refine .frame (hl.grow (.refl σ) hsuffix) (.inr ⟨1, rfl, ?_⟩)
      simp only [List.length_cons]
      omega
  · simp only [List.length_cons] at ha ⊢
    omega
  · have hpos := List.length_pos_of_ne_nil hl.ne_nil
    simp only [List.length_cons] at hone
    omega

theorem FunctionAt.lt_size {f : Function} {t : Nat} (hf : C.FunctionAt Γ f t) : t < C.image.size := by
  obtain ⟨k, entry, ⟨locals, body, -, -, hmem⟩, ht, -⟩ := hf
  obtain ⟨t', hplaced⟩ := C.placed _ hmem
  have hlabel : C.image.get? t' = some (.label entry) := hplaced.1
  obtain rfl : t' = t := Option.some.inj ((C.linked.labels hlabel).symm.trans ht)
  exact Image.lt_size_of_get? hlabel

/-- The code of a function: its frame is opened, then its local declarations are evaluated, then its body. -/
theorem FunctionAt.unit {f : Function} {t : Nat} (hf : C.FunctionAt Γ f t) : ∃ k entry locals body,
    List.Forall₂ (C.DeclCoded k Γ.inClass) f.locals locals ∧ C.Coded Γ.inClass f.body body ∧
    C.image.Placed t ([.label entry, .copyFp, .load .ra] ++ locals.flatten ++
      (body ++ Code.leave f.locals.length f.params.length)) := by
  obtain ⟨k, entry, ⟨locals, body, hlocals, hbody, hmem⟩, ht, -⟩ := hf
  obtain ⟨t', hplaced⟩ := C.placed _ hmem
  have hunit : Generator.unitCode entry f locals body = [.label entry, .copyFp, .load .ra] ++ locals.flatten ++ (body ++
      Code.leave f.locals.length f.params.length) := by
    simp [Generator.unitCode, Code.leave]
  rw [hunit] at hplaced
  obtain rfl : t' = t := Option.some.inj ((C.linked.labels hplaced.1).symm.trans ht)
  exact ⟨k, entry, locals, body, hlocals, hbody, hplaced⟩

variable (C) in
/-- The local declarations of a function have their values, and the machine goes on at the address. The frame lies around
the access link. -/
def GivesLocals (f : Function) (Γ : Context) (σ : Store) (base : List Int64) (next : Nat) (env : Env) (w : World)
    (c : Config) : Prop :=
  ∃ σ' xs R a, σ.Grows σ' ∧ σ'.globals = σ.globals ∧ xs.length = f.locals.length ∧ a + base.length = C.size + 1 ∧
    C.Opened a f.locals.length env (Context.bind (f.block :: Γ) C.program.arena f.locals) σ' (xs ++ base) R w ∧
    c = ⟨next, xs ++ base, σ'.heap, R, w.output⟩

theorem FunctionAt.region {f : Function} {t : Nat} (hf : C.FunctionAt Γ f t) :
    C.program.Region (f.block :: Γ) f.locals f.body := by
  obtain ⟨-, -, -, -, hregion⟩ := hf
  exact hregion

/-- The frame of a function is opened. -/
theorem will_open {f : Function} {outer : Env} {args : List Value} {words : List Int64} {entry : String} {b t ret : Nat}
    {Q : Config → Prop} {E : MachineError → List Int64 → Prop} (hf : C.FunctionAt Γ f t)
    (hp : (W.upTo stop).Placed t [.label entry, .copyFp, .load .ra]) (hl : C.Located σ (words ++ s) outer Γ b)
    (hs : C.Sound σ) (hg : σ.globals <:+ s) (hw : w.objects = σ.values) (hhp : R .hp = Int64.ofNat σ.heap.length)
    (hra : R .ra = Int64.ofNat ret) (hargs : List.Forall₂ (C.Shown σ) args words) (hlength : args.length = f.params.length)
    (he : ∀ ip, E (.stackOverflow ip) w.output)
    (h : ∀ a R', a + (Int64.ofNat b :: (words ++ s)).length = C.size →
      C.Opened a 0 (bindParams (.frame outer) (f.params.zip args)) (f.block :: Γ) σ
        (Int64.ofNat ret :: Int64.ofNat b :: (words ++ s)) R' w →
      Will (W.upTo stop) C.size Q E ⟨t + 3, Int64.ofNat ret :: Int64.ofNat b :: (words ++ s), σ.heap, R', w.output⟩) :
    Will (W.upTo stop) C.size Q E ⟨t, Int64.ofNat b :: (words ++ s), σ.heap, R, w.output⟩ := by
  obtain ⟨hlabel, hcopy, hload, -⟩ := hp
  refine will_label hlabel (will_of_used fun hused => ?_)
  obtain ⟨a, ha⟩ : ∃ a, a + (Int64.ofNat b :: (words ++ s)).length = C.size :=
    ⟨_, Nat.sub_add_cancel (Nat.le_trans (Nat.le_add_right _ _) hused)⟩
  refine will_copyFp hcopy ha (will_push hload rfl (by simpa using hhp) he fun _ => ?_)
  rw [Function.update_of_ne (by decide), hra]
  exact h a _ ha (opened_enter hf.region hl hs hg hw (by simpa using hhp) hargs hlength ha (by simp))

variable (W) in
/-- What runs in the frame of a function belongs to a stage under watch, wherever the frame is. -/
def Entering (n : Nat) (f : Function) (outer : Env) (args : List Value) (σ : Store) (base : List Int64) (w : World) : Prop :=
  ∀ a, a + base.length = C.size + 1 →
    W.Told n (bindParams (.frame outer) (f.params.zip args)) σ base (Int64.ofNat a) w (.block f.locals f.body)

/-- **A function is entered:** its frame is opened, then the code of its local declarations is run. -/
theorem follows_prologue {f : Function} {outer : Env} {args : List Value} {words : List Int64} {entry : String}
    {b k t ret : Nat} {locals : List Code} (ih : W.Simulates n) (hf : C.FunctionAt Γ f t)
    (hlocals : List.Forall₂ (C.DeclCoded k Γ.inClass) f.locals locals)
    (hp : (W.upTo stop).Embedded t ([.label entry, .copyFp, .load .ra] ++ locals.flatten))
    (hl : C.Located σ (words ++ s) outer Γ b) (hs : C.Sound σ) (hg : σ.globals <:+ s) (hw : w.objects = σ.values)
    (hhp : R .hp = Int64.ofNat σ.heap.length) (hra : R .ra = Int64.ofNat ret)
    (hargs : List.Forall₂ (C.Shown σ) args words) (hlength : args.length = f.params.length)
    (ht : Entering W n f outer args σ (Int64.ofNat ret :: Int64.ofNat b :: (words ++ s)) w) :
    Follows (W.upTo stop) C.size (C.Ample n (Int64.ofNat b :: (words ++ s)))
      (f.locals.foldlM (declare C.program.arena (expr C.program.arena n)) (bindParams (.frame outer) (f.params.zip args)) w)
      (C.GivesLocals f Γ σ (Int64.ofNat ret :: Int64.ofNat b :: (words ++ s)) (t + 3 + locals.flatten.length))
      ⟨t, Int64.ofNat b :: (words ++ s), σ.heap, R, w.output⟩ := by
  have hprints : Prints (f.locals.foldlM (declare C.program.arena (expr C.program.arena n))
      (bindParams (.frame outer) (f.params.zip args))) := prints_foldlM (prints_declare (prints_expr n)) f.locals _
  obtain ⟨⟨hopens, -⟩, hlocals'⟩ := View.embedded_append.1 hp
  intro hset
  refine will_open hf hopens hl hs hg hw hhp hra hargs hlength (allowed_overflow hprints) fun a R' ha hopen => ?_
  rw [← Context.bind_nil (f.block :: Γ) C.program.arena] at hopen
  have hcodes : List.Forall₂ (C.DeclCoded k (Context.inClass (f.block :: Γ))) f.locals locals := hlocals
  have hall : C.program.Region (f.block :: Γ) ([] ++ f.locals) f.body := hf.region
  have hblock := ht a (by simp only [List.length_cons] at ha ⊢; omega)
  rw [← hopen.fp] at hblock
  refine ((follows_declares ih hcodes hall hlocals' hopen hblock).weaken fun h => Ample.above h (Nat.le_succ _)).mono ?_ hset
  rintro env₁ w₁ c₁ ⟨σ₁, s₁, R₁, hgrows, hglobals, ⟨xs, rfl⟩, ho, rfl⟩
  have hnext := ho.next
  simp only [List.length_append, List.length_cons, List.nil_append] at hnext ha
  refine ⟨σ₁, xs, R₁, a, hgrows, hglobals ?_, by omega, ?_, ho, rfl⟩
  · have hpos := List.length_pos_of_ne_nil hl.ne_nil
    rw [Context.length_bind, List.length_cons]
    omega
  · simp only [List.length_append, List.length_cons]
    omega

/-- **A function is run** up to the jump that leaves it. Behind that the machine goes on where the function was called,
with the value on the stack and the frame as it was. -/
theorem follows_enter {f : Function} {outer : Env} {args : List Value} {words : List Int64} {b t ret : Nat}
    {R₀ : Register → Int64} (ih : W.Simulates n) (hf : C.FunctionAt Γ f t)
    (hl : C.Located σ (words ++ R₀ .fp :: s) outer Γ b) (hs : C.Sound σ) (hg : σ.globals <:+ s) (hw : w.objects = σ.values)
    (hhp : R .hp = Int64.ofNat σ.heap.length) (hra : R .ra = Int64.ofNat ret) (hargs : List.Forall₂ (C.Shown σ) args words)
    (ht : args.length = f.params.length →
      Entering W n f outer args σ (Int64.ofNat ret :: Int64.ofNat b :: (words ++ R₀ .fp :: s)) w) :
    Follows W.inside C.size (C.Ample n (Int64.ofNat b :: (words ++ R₀ .fp :: s)))
      (enter C.program.arena (expr C.program.arena n) f outer args w)
      (fun v w => Config.Exits C.image ret (C.Gives σ s R₀ ret v w))
      ⟨t, Int64.ofNat b :: (words ++ R₀ .fp :: s), σ.heap, R, w.output⟩ := by
  obtain ⟨k, entry, locals, body, hlocals, hbody, hplaced⟩ := hf.unit
  rw [← List.append_assoc] at hplaced
  obtain ⟨hprologue', hbody'⟩ := View.embedded_append.1 (W.inside.embedded_front hplaced.inside)
  have hleave := (Image.placed_append.1 hplaced.inside).2
  rw [List.length_append, List.length_append, ← Nat.add_assoc, ← Nat.add_assoc] at hleave
  rw [List.length_append, ← Nat.add_assoc] at hbody'
  unfold enter
  split
  · rename_i hlength
    have hprologue := follows_prologue ih hf hlocals hprologue' hl hs (hg.trans (List.suffix_cons _ s)) hw hhp hra hargs
      hlength (ht hlength)
    refine follows_bind (fun env => prints_expr _ _ _) hprologue ?_
    rintro env₁ w₁ c₁ hrun ⟨σ₁, xs, R₁, a, hgrows, hglobals, hxs, ha, ho, rfl⟩
    have hcode : C.Coded (Context.inClass (Context.bind (f.block :: Γ) C.program.arena f.locals)) f.body body := by
      rw [Context.inClass_bind]
      exact hbody
    have hsite := Program.Site.body hf.region (C.program.arena.mem_walk_self f.body)
    have hlast := (ht hlength a ha).declares hrun hgrows (List.suffix_append xs _) (by rw [List.length_append, hxs, Nat.add_comm])
    rw [← ho.fp] at hlast
    have habove : (Int64.ofNat b :: (words ++ R₀ .fp :: s)).length ≤
        (xs ++ Int64.ofNat ret :: Int64.ofNat b :: (words ++ R₀ .fp :: s)).length := by
      simp only [List.length_append, List.length_cons]
      omega
    refine ((ih hsite hcode hbody' ho.ready hlast).weaken fun h => (Ample.above h habove).enough hcode.lt_size).onward ?_
    rintro v w₂ c₂ ⟨σ₂, R₂, word, hk, hw₂, hv, rfl⟩
    have hwords : words.length = f.params.length := hargs.length_eq ▸ hlength
    rw [← hxs, ← hwords] at hleave
    refine will_leave hleave hk.hp (fun ip => .inl ⟨⟨ip, rfl⟩, List.prefix_refl _⟩) fun R' hfp' hhp' => ?_
    exact ⟨σ₂, R', word, ⟨hgrows.trans hk.grows, hk.globals.trans hglobals, hk.sound, hfp', hhp'.trans hk.hp⟩, hw₂, hv, rfl⟩
  · exact follows_illFormed

/-! ## What is called -/

section Targets

open Generator

variable {E : MachineError → List Int64 → Prop} {Q : Config → Prop} {name : Symbol} {entry : Entry} {out : List Int64}

variable (C) in
/-- The entry of a function and its access link are on the stack, and the machine goes on at the address. The link is
what is seen from the surroundings of the call. -/
def GivesTarget (env : Env) (σ : Store) (s : List Int64) (R : Register → Int64) (next : Nat) (q : Function × Env)
    (w : World) (c : Config) : Prop :=
  ∃ Γ t b R', C.FunctionAt Γ q.1 t ∧ C.Located σ s q.2 Γ b ∧ C.Within σ s env (R .fp) q.2 (Int64.ofNat b) ∧
    R' .fp = R .fp ∧ R' .hp = R .hp ∧ w.objects = σ.values ∧
    c = ⟨next, Int64.ofNat t :: Int64.ofNat b :: s, σ.heap, R', w.output⟩

/-- From an object the way leads over its table to the unit of a method. -/
theorem will_method {id b : Nat} {o : Object} {ms ms' : List Function} {m : Function}
    (hp : (W.upTo stop).Placed ip (Code.duplicate ++ ([.loadWord] ++ Code.loadAt ms.length))) (hs : C.Sound σ)
    (ho : σ.objects[id]? = some (o, b)) (hms : o.cls.methods = ms ++ m :: ms') (hhp : R .hp = Int64.ofNat σ.heap.length)
    (he : ∀ ip, E (.stackOverflow ip) out)
    (h : ∀ t blk R', C.FunctionAt [o.cls.block (ms ++ [m]), blk] m t →
      C.Located σ s (.object id o.cls (ms ++ [m]) o.env) [o.cls.block (ms ++ [m]), blk] b → R' .fp = R .fp →
      R' .hp = R .hp → Will (W.upTo stop) C.size Q E ⟨ip + 7, Int64.ofNat t :: Int64.ofNat b :: s, σ.heap, R', out⟩) :
    Will (W.upTo stop) C.size Q E ⟨ip, Int64.ofNat b :: s, σ.heap, R, out⟩ := by
  obtain ⟨T, blk, hT, hclass, hl⟩ := (hs.objects ho).table
  obtain ⟨t, hf, ht⟩ := hclass.2 ms m ms' hms
  obtain ⟨hdup, hload, hentry⟩ := Image.placed_append.1 hp
  have hcell : Cell C.size (Int64.ofNat b :: s) σ.heap (T + ms.length) (Int64.ofNat t) := .inl ht
  have hprefix : ms ++ [m] <+: o.cls.methods := ⟨ms', by rw [hms]; simp⟩
  refine will_duplicate hdup hhp (fun _ => he) (will_loadWord hload (.inl hT) (low_of_eq (by simpa using hhp)) ?_)
  refine will_loadAt hentry (by push_cast; rfl) hcell (by simpa using hhp) he ?_
  exact h t blk _ hf (.object hl.outermost ho rfl rfl hprefix) (by simp) (by simp)

/-- The function that a variable, a parameter or a field holds is called in the surroundings of the program. -/
theorem follows_asFunction {H : Prop} {a b : Nat} {m : Option Entry}
    (hp : (W.upTo stop).Embedded ip (targetOf (Int64.ofNat C.size) Γ.inClass ⟨entry, Γ.depth, m⟩))
    (hr : C.Ready env Γ σ s R w) (hfp : R .fp = Int64.ofNat a) (hreach : C.Reaches σ s Γ a entry.depth b)
    (hheld : held env name w = .error .illFormed w ∨ ∃ ty v, held env name w = .ok (ty, v) w ∧ C.Holding σ s entry b ty v) :
    Follows (W.upTo stop) C.size H (callee.asFunction env name w)
      (C.GivesTarget env σ s R (ip + (targetOf (Int64.ofNat C.size) Γ.inClass ⟨entry, Γ.depth, m⟩).length))
      ⟨ip, s, σ.heap, R, w.output⟩ := by
  show Follows (W.upTo stop) C.size H (EStateM.bind (held env name) _ w) _ _
  unfold EStateM.bind
  rcases hheld with hheld | ⟨ty, v, hheld, -, hkind, word, hword, hv⟩
  · rw [hheld]
    exact follows_illFormed
  · rw [hheld]
    cases hv with
    | @func f outer blk t hl hf =>
      have htarget : targetOf (Int64.ofNat C.size) Γ.inClass ⟨entry, Γ.depth, m⟩ = .push (Int64.ofNat C.size) ::
          (frameOf (Int64.ofNat C.size) Γ.inClass ⟨entry, Γ.depth, m⟩ ++ Code.loadAt entry.offset) := by
        unfold targetOf
        rcases hkind with hkind | hkind | hkind <;> simp [hkind]
      rw [htarget] at hp ⊢
      obtain ⟨⟨hpush, hp⟩, -⟩ := hp
      obtain ⟨hframe, hload⟩ := Image.placed_append.1 hp
      have he := allowed_overflow (w := w) (prints_pure (f, Env.func f outer))
      have hsuffix := List.suffix_cons (Int64.ofNat C.size) s
      intro _
      refine will_push hpush rfl hr.hp he fun _ => ?_
      refine will_frameOf hframe (hreach.grow (.refl σ) hsuffix) hfp hr.hp he ?_
      refine will_loadHeld hload (hword.grow (.refl σ) hsuffix) hr.hp he (will_done ?_)
      refine ⟨[blk], t, C.size, R, hf, hl.outermost, hl.within, rfl, rfl, hr.objects, ?_⟩
      simp [Code.loadAt]
      omega
    | _ => exact follows_illFormed

/-- **What is called is found,** and the way to it is that of the code. -/
theorem follows_callee {H : Prop} {a : Nat} {m : Option Entry}
    (hp : (W.upTo stop).Embedded ip (targetOf (Int64.ofNat C.size) Γ.inClass ⟨entry, Γ.depth, m⟩))
    (hr : C.Ready env Γ σ s R w) (hfp : R .fp = Int64.ofNat a) (hfinds : C.Finds σ s env Γ a name entry) :
    Follows (W.upTo stop) C.size H (callee env name w)
      (C.GivesTarget env σ s R (ip + (targetOf (Int64.ofNat C.size) Γ.inClass ⟨entry, Γ.depth, m⟩).length))
      ⟨ip, s, σ.heap, R, w.output⟩ := by
  obtain ⟨node, b, hfind, hdepth, hreach, hfound, hwithin⟩ := hfinds
  have hasFunction := follows_asFunction (H := H) hp hr hfp hreach (hfound.held hr.sound hr.objects hfind)
  unfold callee
  rw [hfind]
  cases hfound with
  | value => exact hasFunction
  | cls => exact hasFunction
  | @func f outer Γ' ty b t k hl hf hh =>
    have he := allowed_overflow (w := w) (prints_pure (f, Env.func f outer))
    unfold targetOf at hp ⊢
    simp only [List.append_assoc] at hp ⊢
    obtain ⟨⟨hframe, hp⟩, -⟩ := And.imp_left Image.placed_append.1 hp
    obtain ⟨hdup, hload⟩ := Image.placed_append.1 hp
    intro _
    refine will_frameOf hframe hreach hfp hr.hp he (will_duplicate hdup hr.hp (fun _ => he) ?_)
    refine will_loadHeld hload (hh.grow (.refl σ) (List.suffix_cons _ s)) (by simpa using hr.hp) he (will_done ?_)
    refine ⟨Γ', t, b, Function.update R .tm (Int64.ofNat b), hf, hl, hfp ▸ hwithin, by simp, by simp, hr.objects, ?_⟩
    simp [Code.loadAt, Code.duplicate]
    omega
  | @object id c methods outer _ o b ho hcls henv hm hd hmeaning =>
    dsimp only
    cases hmethod : method? methods name with
    | none => exact hasFunction
    | some q =>
      obtain ⟨m', upTo⟩ := q
      obtain ⟨ms, ms', rfl, rfl, rfl⟩ := method?_eq_some hmethod
      obtain ⟨rest, hrest⟩ := hm
      have hmethods : o.cls.methods = ms ++ m' :: (ms' ++ rest) := by rw [hcls, ← hrest]; simp
      have hm' : (ms ++ m' :: ms')[ms.length]? = some m' := by simp
      rw [Class.meaning?_method hd hm'] at hmeaning
      obtain rfl := Option.some.inj hmeaning
      have he := allowed_overflow (w := w) (prints_pure (m', Env.object id c (ms ++ [m']) outer))
      unfold targetOf at hp ⊢
      simp only [List.append_assoc] at hp ⊢
      obtain ⟨⟨hframe, hp⟩, -⟩ := And.imp_left Image.placed_append.1 hp
      subst hcls henv
      intro _
      refine will_frameOf hframe hreach hfp hr.hp he (will_method hp hr.sound ho hmethods hr.hp he ?_)
      intro t blk R' hf hl hfp' hhp'
      refine will_done ⟨_, t, b, R', hf, hl, hl.within_object, hfp', hhp', hr.objects, ?_⟩
      simp [Code.loadAt, Code.duplicate]
      omega

/-- The method of the class of a receiver has the place that is known of it. -/
theorem method_offset {d d' : DeclRef} {c c' : Class} {ms ms' front back : List Function} {m : Function}
    (hd : d ∈ C.program.declarations) (hx : C.program.arena.decl? d = some (.classDecl c))
    (hd' : d' ∈ C.program.declarations) (hx' : C.program.arena.decl? d' = some (.classDecl c')) (hname : c'.name = c.name)
    (hms : c.methods = ms ++ ms') (hmeaning : (c.block ms).meaning? 1 m.name = some entry) (hkind : entry.kind = .method)
    (hmethods : c'.methods = front ++ m :: back) : entry.offset = front.length := by
  obtain rfl := C.faultless.class_eq hd' hx' hd hx hname
  obtain ⟨i, f, hi, hf, rfl⟩ := C.faultless.method_eq hd hx hms hmeaning hkind
  have hdistinct := C.faultless.distinct_members hd hx
  have hm : c'.methods[front.length]? = some m := by rw [hmethods]; simp
  have hfirst : (c'.block c'.methods).meaning? 1 f.name = _ := Class.meaning?_method hdistinct hi
  rw [hf, Class.meaning?_method hdistinct hm] at hfirst
  exact congrArg Entry.offset (Option.some.inj hfirst).symm

/-- **The method of a receiver is found;** null has none. -/
theorem follows_methodCallee {H : Prop} {a : Nat} {receiver method : Symbol} {d : DeclRef} {c : Class}
    {ms ms' : List Function} {m : Entry} {r : Resolution} (hty : entry.ty = .object c.name)
    (hd : d ∈ C.program.declarations) (hx : C.program.arena.decl? d = some (.classDecl c)) (hms : c.methods = ms ++ ms')
    (hmeaning : (c.block ms).meaning? 1 method = some m) (hkind : m.kind = .method)
    (hres : r = ⟨entry, Γ.depth, some m⟩)
    (hcode : code = frameOf (Int64.ofNat C.size) Γ.inClass r ++ Code.loadAt r.entry.offset ++ Code.duplicate ++
      [.loadWord] ++ Code.loadAt m.offset) (hp : (W.upTo stop).Embedded ip code) (hr : C.Ready env Γ σ s R w)
    (hfp : R .fp = Int64.ofNat a) (hfinds : C.Finds σ s env Γ a receiver entry) :
    Follows (W.upTo stop) C.size H (methodCallee env receiver method w)
      (C.GivesTarget env σ s R (ip + code.length)) ⟨ip, s, σ.heap, R, w.output⟩ := by
  obtain ⟨node, b, hfind, hdepth, hreach, hfound, -⟩ := hfinds
  subst hcode hres
  simp only [List.append_assoc] at hp ⊢
  obtain ⟨⟨hframe, hp⟩, -⟩ := And.imp_left Image.placed_append.1 hp
  obtain ⟨hload, hp⟩ := Image.placed_append.1 hp
  show Follows (W.upTo stop) C.size H (EStateM.bind (held env receiver) _ w) _ _
  unfold EStateM.bind
  rcases hfound.held hr.sound hr.objects hfind with hheld | ⟨ty, v, hheld, hty', -, word, hword, hv⟩
  · rw [hheld]
    exact follows_illFormed
  · rw [hheld]
    cases hv with
    | int =>
      dsimp only
      split
      · rename_i hnull
        subst hnull
        obtain ⟨hdup, hnull, -⟩ := Image.placed_append.1 hp
        have he : ∀ ip, Allowed (.error .nullReceiver w : EStateM.Result Stop World (Function × Env))
            (.stackOverflow ip) w.output := fun ip => .inl ⟨⟨ip, rfl⟩, List.prefix_refl _⟩
        intro _
        refine will_frameOf hframe hreach hfp hr.hp he (will_loadHeld hload hword hr.hp he ?_)
        refine will_duplicate hdup hr.hp (fun _ => he) (will_loadWord_null hnull (.inr ⟨⟨_, rfl⟩, rfl⟩))
      · exact follows_illFormed
    | @object id o b' ho =>
      cases ty with
      | object name =>
        have hobject : w.objects[id]? = some o := by rw [hr.objects, Store.values, List.getElem?_map, ho]; rfl
        simp only [get_bind_run, hobject]
        cases hmethod : method? o.cls.methods method with
        | none => exact follows_illFormed
        | some q =>
          obtain ⟨m', upTo⟩ := q
          obtain ⟨front, back, hmethods, rfl, rfl⟩ := method?_eq_some hmethod
          dsimp only
          split
          · rename_i hname
            have hclass : o.cls.name = c.name := by
              rw [hty] at hty'
              exact hname.trans (CheckedType.object.inj hty').symm
            obtain ⟨T, blk, -, ⟨⟨d', hd', hx'⟩, -⟩, -⟩ := (hr.sound.objects ho).table
            rw [method_offset hd hx hd' hx' hclass hms hmeaning hkind hmethods] at hp ⊢
            have he := allowed_overflow (w := w) (prints_pure (m', Env.object id o.cls (front ++ [m']) o.env))
            intro _
            refine will_frameOf hframe hreach hfp hr.hp he (will_loadHeld hload hword hr.hp he ?_)
            refine will_method hp hr.sound ho hmethods hr.hp he ?_
            intro t blk R' hf hl hfp' hhp'
            refine will_done ⟨_, t, b', R', hf, hl, hl.within_object, hfp', hhp', hr.objects, ?_⟩
            simp [Code.loadAt, Code.duplicate]
            omega
          · exact follows_illFormed
      | _ => exact follows_illFormed
    | _ => exact follows_illFormed

end Targets

/-! ## Calls -/

/-- The code of a call. -/
theorem Coded.of_call {function : Symbol} {args : List ExprRef} {inClass : Bool} (h : C.Coded inClass e code)
    (hx : C.program.arena.expr? e = some (.call function args)) : ∃ codes r,
      (C.program.bind C.names).resolutions.get? e = some r ∧ List.Forall₂ (C.Coded inClass) args.reverse codes ∧
      code = .load .fp :: codes.flatten ++ Generator.targetOf (Int64.ofNat C.size) inClass r ++ [.jumpSub] := by
  cases h with
  | call hx' hget hcodes =>
    cases hx.symm.trans hx'
    exact ⟨_, _, hget, hcodes, rfl⟩
  | _ => cases hx.symm.trans ‹_›

/-- The code of the call of a method. -/
theorem Coded.of_methodCall {receiver method : Symbol} {args : List ExprRef} {inClass : Bool} (h : C.Coded inClass e code)
    (hx : C.program.arena.expr? e = some (.methodCall receiver method args)) : ∃ codes r m,
      (C.program.bind C.names).resolutions.get? e = some r ∧ r.method = some m ∧
      List.Forall₂ (C.Coded inClass) args.reverse codes ∧
      code = .load .fp :: codes.flatten ++ (Generator.frameOf (Int64.ofNat C.size) inClass r ++ Code.loadAt r.entry.offset ++
        Code.duplicate ++ [.loadWord] ++ Code.loadAt m.offset) ++ [.jumpSub] := by
  cases h with
  | methodCall hx' hget hm hcodes =>
    cases hx.symm.trans hx'
    exact ⟨_, _, _, hget, hm, hcodes, by simp⟩
  | _ => cases hx.symm.trans ‹_›

/-- A value at an offset is loaded last. -/
theorem exists_loadAt (before : Code) (k : Int) : ∃ front, before ++ Code.loadAt k = front ++ [.loadWord] :=
  ⟨before ++ [.push (Int64.ofInt k), .arith .add], by simp [Code.loadAt]⟩

/-- The way to what is called ends with loading its address. -/
theorem exists_targetOf (frameBase : Int64) (inClass : Bool) (r : Resolution) :
    ∃ front, Generator.targetOf frameBase inClass r = front ++ [.loadWord] := by
  unfold Generator.targetOf
  split <;> exact exists_loadAt _ _

/-- What is called prints nothing by itself. -/
theorem prints_target {target : EvalM (Function × Env)} (htarget : target? env x = some target) : Prints target := by
  cases x with
  | call function args =>
    cases htarget
    exact prints_callee env function
  | methodCall receiver method args =>
    cases htarget
    exact prints_methodCallee env receiver method
  | _ => cases htarget

/-- **A call is the evaluation of its operands, of what is called, and then of its body.** -/
theorem expr_of_target {arena : Arena} {target : EvalM (Function × Env)} (hx : arena.expr? e = some x)
    (htarget : target? env x = some target) : expr arena (n + 1) env e = x.operands.mapM (expr arena n env) >>= fun vs =>
      target >>= fun q => enter arena (expr arena n) q.1 q.2 vs.reverse := by
  rw [expr, hx]
  cases x <;> cases htarget <;> rfl

/-- **The code of a call:** the frame of the caller, the operands, the way to what is called, and the jump. -/
theorem exists_calling {target : EvalM (Function × Env)} (hs : C.program.Site Γ e) (hx : C.program.arena.expr? e = some x)
    (htarget : target? env x = some target) (hcode : C.Coded Γ.inClass e code) : ∃ codes front,
      code = .load .fp :: (codes.flatten ++ (front ++ [.loadWord])) ++ [.jumpSub] ∧
      List.Forall₂ (C.Coded Γ.inClass) x.operands codes ∧
      ∀ {W : C.Watch} {stop ip σ s R w} {H : Prop}, C.Ready env Γ σ s R w → (W.upTo stop).Embedded ip (front ++ [.loadWord]) →
        Follows (W.upTo stop) C.size H (target w) (C.GivesTarget env σ s R (ip + (front ++ [.loadWord] : Code).length))
          ⟨ip, s, σ.heap, R, w.output⟩ := by
  cases x with
  | call function args =>
    cases htarget
    obtain ⟨codes, r, hget, hcodes, rfl⟩ := hcode.of_call hx
    obtain ⟨entry, hlook, hget'⟩ := C.faultless.call hs hx
    obtain rfl := Option.some.inj (hget.symm.trans hget')
    obtain ⟨front, hfront⟩ := exists_targetOf (Int64.ofNat C.size) Γ.inClass ⟨entry, Γ.depth, none⟩
    refine ⟨codes, front, by rw [hfront]; simp, hcodes, fun hr hp => ?_⟩
    obtain ⟨a, hfp, hfinds⟩ := hr.finds hs hlook
    rw [← hfront] at hp ⊢
    exact follows_callee hp hr hfp hfinds
  | methodCall receiver method args =>
    cases htarget
    obtain ⟨codes, r, m, hget, hm, hcodes, rfl⟩ := hcode.of_methodCall hx
    obtain ⟨entry, m', d, c, ms, ms', hlook, hty, hd, hdecl, hms, hmeaning, hkind, hget'⟩ := C.faultless.methodCall hs hx
    obtain rfl := Option.some.inj (hget.symm.trans hget')
    obtain rfl : m' = m := Option.some.inj hm
    obtain ⟨front, hfront⟩ := exists_loadAt (Generator.frameOf (Int64.ofNat C.size) Γ.inClass ⟨entry, Γ.depth, some m'⟩ ++
      Code.loadAt entry.offset ++ Code.duplicate ++ [.loadWord]) m'.offset
    refine ⟨codes, front, by rw [hfront]; simp, hcodes, fun hr hp => ?_⟩
    obtain ⟨a, hfp, hfinds⟩ := hr.finds hs hlook
    rw [← hfront] at hp ⊢
    exact follows_methodCallee hty hd hdecl hms hmeaning hkind rfl rfl hp hr hfp hfinds
  | _ => cases htarget

theorem saved_of_target {target : EvalM (Function × Env)} (htarget : target? env x = some target) : x.saved = 1 := by
  cases x <;> cases htarget <;> rfl

variable (C) in
/-- The machine is about to jump to the unit of what is called. Below its address lies the access link, then the first
argument, then the others, then the frame of the caller. The link is what is seen from the surroundings of the call. -/
def GivesCall (env : Env) (σ : Store) (s : List Int64) (R : Register → Int64) (jump : Nat)
    (q : (Function × Env) × List Value) (w : World) (c : Config) : Prop :=
  ∃ Γ t b σ' R' words, C.FunctionAt Γ q.1.1 t ∧ C.Located σ' (words ++ R .fp :: s) q.1.2 Γ b ∧
    C.Within σ' (words ++ R .fp :: s) env (R .fp) q.1.2 (Int64.ofNat b) ∧ C.Keeps σ R σ' R' ∧ w.objects = σ'.values ∧
    List.Forall₂ (C.Shown σ') q.2 words ∧
    c = ⟨jump, Int64.ofNat t :: Int64.ofNat b :: (words ++ R .fp :: s), σ'.heap, R', w.output⟩

/-- **What a call puts on the stack:** the frame of the caller, the operands, and the access link. -/
theorem follows_arguments {inner : Code} {target : EvalM (Function × Env)} (ih : W.Simulates n)
    (hs : C.program.Site Γ e) (hx : C.program.arena.expr? e = some x) (htarget : target? env x = some target)
    (hcode : C.Coded Γ.inClass e (.load .fp :: inner ++ [.jumpSub])) (hp : (W.upTo stop).Embedded ip (.load .fp :: inner))
    (hr : C.Ready env Γ σ s R w) (ht : W.Told (n + 1) env σ s (R .fp) w (.expr e)) :
    Follows (W.upTo stop) C.size (C.Enough (n + 1) e s)
      ((x.operands.mapM (expr C.program.arena n env) >>= fun values => target >>= fun q => pure (q, values.reverse)) w)
      (C.GivesCall env σ s R (ip + inner.length + 1)) ⟨ip, s, σ.heap, R, w.output⟩ := by
  obtain ⟨codes, front, hinner, hcodes, hway⟩ := exists_calling hs hx htarget hcode
  obtain rfl : inner = codes.flatten ++ (front ++ [.loadWord]) := List.append_cancel_right (List.cons.inj hinner).2
  obtain ⟨⟨hload, hrest⟩, hlt⟩ := hp
  rw [List.length_cons, ← Nat.add_assoc, Nat.add_right_comm] at hlt
  obtain ⟨hargs, hway'⟩ := View.embedded_append.1 ⟨hrest, hlt⟩
  have hprints : ∀ values : List Value, Prints (target >>= fun q => pure (q, values.reverse)) := fun values =>
    prints_bind (prints_target htarget) fun q => prints_pure _
  intro hset
  refine will_push hload rfl hr.hp (allowed_overflow (prints_bind (prints_mapM (prints_expr n env) _) hprints)) fun _ => ?_
  have hsaved : (R .fp :: s).length = s.length + x.saved + ([] : List ExprRef).length := by
    rw [saved_of_target htarget]
    rfl
  have hframe := hr.after hr.keeps (List.suffix_cons (R .fp) s) hr.objects
  refine follows_bind hprints (follows_args ih hs hx ⟨[], (by simp : _ = [] ++ x.operands ++ [])⟩ ht rfl hr.keeps
    (List.suffix_cons (R .fp) s) hsaved hcodes hargs hframe) ?_ hset
  rintro values w₁ c₁ - ⟨σ₁, R₁, words, hk, hw, hvalues, rfl⟩
  have hr₁ := hr.after hk ((List.suffix_cons (R .fp) s).trans (List.suffix_append words.reverse _)) hw
  refine follows_bind (fun q => prints_pure _) (hway hr₁ hway') ?_
  rintro q w₂ c₂ - ⟨Γ', t, b, R₂, hf, hl, hwithin, hfp₂, hhp₂, hw₂, rfl⟩
  refine follows_pure ⟨Γ', t, b, σ₁, R₂, words.reverse, hf, hl, hk.fp ▸ hwithin, ?_, hw₂,
    List.forall₂_reverse_iff.2 hvalues, ?_⟩
  · exact ⟨hk.grows, hk.globals, hk.sound, hfp₂.trans hk.fp, hhp₂.trans hk.hp⟩
  · have haddr : ip + 1 + codes.flatten.length + (front ++ [Instruction.loadWord]).length =
        ip + (codes.flatten ++ (front ++ [Instruction.loadWord])).length + 1 := by
      simp only [List.length_append]
      omega
    rw [haddr]

/-- Where a function returns after an evaluation, this is behind it. -/
theorem exits_of_post {α : Type} {image : Image} {ret : Nat} {Q : α → World → Config → Prop}
    {r : EStateM.Result Stop World α} {c : Config} (h : Post (fun v w => Config.Exits image ret (Q v w)) r c) :
    Config.Exits image ret (Post Q r) c := by
  cases r with
  | ok v w => exact h
  | error stop w => exact h.elim

/-- **From the stage of a call** the machine comes to the jump, and performs the call. -/
theorem comes_performed {inner : Code} {target : EvalM (Function × Env)} {m₀ : Machine} (ih : W.Simulates n)
    (hs : C.program.Site Γ e) (hx : C.program.arena.expr? e = some x) (htarget : target? env x = some target)
    (hcode : C.Coded Γ.inClass e (.load .fp :: inner ++ [.jumpSub]))
    (hp : (W.upTo stop).Embedded ip (.load .fp :: inner ++ [.jumpSub])) (hr : C.Ready env Γ σ s R w)
    (ht : W.Told (n + 1) env σ s (R .fp) w (.expr e)) (hb : (W.upTo stop).Begun m₀)
    (hm₀ : Machine.Shows C.image C.size m₀ ⟨ip, s, σ.heap, R, w.output⟩) {r : EStateM.Result Stop World _}
    (hrun : (x.operands.mapM (expr C.program.arena n env) >>= fun values => target >>= fun q =>
      pure (q, values.reverse)) w = r) (hset : Settled (C.Enough (n + 1) e s) r) :
    Machine.Comes (W.upTo stop) (fun d m => d = 0 ∧ m.Calling ∧ W.calls m ∧ ∃ c, Machine.Shows C.image C.size m c ∧
      Post (C.GivesCall env σ s R (ip + inner.length + 1)) r c) (Allowed r) m₀ := by
  subst hrun
  have hjump := (Image.placed_append.1 hp.1).2.1
  rw [List.length_cons, ← Nat.add_assoc] at hjump
  have hloaded : (W.upTo stop).get? (ip + inner.length) = some .loadWord := by
    obtain ⟨codes, front, hinner, -⟩ := exists_calling hs hx htarget hcode
    obtain rfl : inner = codes.flatten ++ (front ++ [.loadWord]) := List.append_cancel_right (List.cons.inj hinner).2
    rw [← List.append_assoc] at hp ⊢
    have hlast := (Image.placed_append.1 (Image.placed_append.1 hp.1).1.2).2.1
    rwa [List.length_append, List.length_singleton, ← Nat.add_assoc, Nat.add_right_comm]
  have hfront : (W.upTo (ip + inner.length + 1)).Embedded ip (.load .fp :: inner) :=
    embedded_upTo (View.embedded_append.1 hp).1 (Nat.le_refl _)
  have hcomes := (follows_arguments ih hs hx htarget hcode hfront hr ht hset m₀ hb hm₀).traced
  refine (Watch.widen hcomes (Nat.le_of_lt ((W.upTo stop).lt_stop hjump))).mono ?_
  rintro d m ⟨⟨rfl, c, hm, hpost⟩, k, hpasses⟩
  have hip : c.ip = ip + inner.length + 1 := by
    revert hpost
    cases (x.operands.mapM (expr C.program.arena n env) >>= fun values => target >>= fun q => pure (q, values.reverse)) w with
    | error stop' w' => exact False.elim
    | ok q w' =>
      rintro ⟨Γ', t, b, σ', R', words, -, -, -, -, -, -, rfl⟩
      rfl
  have hm' : m.ip = ip + inner.length + 1 := hm.ip.trans hip
  refine ⟨rfl, Machine.calling_of_loadWord hm' (hm.image ▸ (W.upTo stop).whole_of_get? hloaded)
    (hm.image ▸ (W.upTo stop).whole_of_get? hjump), ?_, c, hm, hpost⟩
  obtain ⟨chain, hchain, hstage⟩ := ht
  refine ⟨_, e, m₀, k, hstage, hb, ?_, ?_⟩
  · exact .intro hx htarget hs hcode (embedded_all hp) hr hchain rfl hm₀ hm'
  · rw [hm']
    exact hpasses.mono (fun _ _ => Course.Step.next) fun _ => id

/-- What runs in the frame of a function that is called under watch does so too. -/
theorem Watch.Told.entering {target : EvalM (Function × Env)} {vs : List Value} {f : Function} {outer : Env}
    {w₁ w₂ : World} {words : List Int64} {b : Nat} {ret : Int64} (ht : W.Told (n + 1) env σ s (R .fp) w (.expr e))
    (hx : C.program.arena.expr? e = some x) (htarget : target? env x = some target)
    (hvs : x.operands.mapM (expr C.program.arena n env) w = .ok vs w₁) (hq : target w₁ = .ok (f, outer) w₂)
    (hlength : vs.reverse.length = f.params.length) (hσ : σ.Grows σ')
    (hwithin : C.Within σ' (words ++ R .fp :: s) env (R .fp) outer (Int64.ofNat b)) (hwords : words.length = vs.reverse.length)
    (hused : words.length + s.length + σ'.heap.length < C.size) :
    Entering W n f outer vs.reverse σ' (ret :: Int64.ofNat b :: (words ++ R .fp :: s)) w₂ := by
  intro a ha
  rw [List.length_reverse] at hlength hwords
  simp only [List.length_cons, List.length_append] at ha
  refine ht.enter hx htarget hvs hq hlength hσ hwithin hwords ?_ ?_ <;>
    simp only [List.length_cons, List.length_append] <;> omega

/-- **A call:** what is called is entered with the values of the operands. -/
theorem followed_calling {target : EvalM (Function × Env)} (ih : W.Simulates n) (hs : C.program.Site Γ e)
    (hx : C.program.arena.expr? e = some x) (htarget : target? env x = some target) (hcode : C.Coded Γ.inClass e code)
    (hp : (W.upTo stop).Embedded ip code) (hr : C.Ready env Γ σ s R w) (ht : W.Told (n + 1) env σ s (R .fp) w (.expr e)) :
    W.Followed stop (n + 1) env e code ip σ s R w := by
  obtain ⟨inner, rfl⟩ : ∃ inner, code = .load .fp :: inner ++ [.jumpSub] := by
    obtain ⟨codes, front, rfl, -⟩ := exists_calling hs hx htarget hcode
    exact ⟨_, rfl⟩
  have hseq : expr C.program.arena (n + 1) env e = (x.operands.mapM (expr C.program.arena n env) >>= fun values =>
      target >>= fun q => pure (q, values.reverse)) >>=
        fun r => enter C.program.arena (expr C.program.arena n) r.1.1 r.1.2 r.2 := by
    rw [expr_of_target hx htarget]
    simp only [bind_assoc, pure_bind]
  have hjump := (Image.placed_append.1 hp.1).2.1
  rw [List.length_cons, ← Nat.add_assoc] at hjump
  unfold Watch.Followed
  rw [hseq]
  intro hset m₀ hb hm₀
  refine (comes_performed ih hs hx htarget hcode hp hr ht hb hm₀ rfl hset.of_bind).bind
    (fun _ _ => .bind fun r => prints_enter (prints_expr n) _ _ _) ?_
  rintro k d m hpasses ⟨rfl, hcalling, hcalls, c, hm, hpost⟩
  simp only [Nat.zero_add]
  cases hrun : (x.operands.mapM (expr C.program.arena n env) >>= fun values => target >>= fun q =>
      pure (q, values.reverse)) w with
  | error stop' w' =>
    rw [hrun] at hpost
    exact hpost.elim
  | ok q w₁ =>
    rw [hrun] at hpost
    rw [bind_of_ok hrun] at hset ⊢
    obtain ⟨vs, w₂, hvs, hrest⟩ := exists_of_bind hrun
    obtain ⟨⟨f, outer⟩, w₃, hq, hpure⟩ := exists_of_bind hrest
    cases hpure
    obtain ⟨Γ', t, b, σ₁, R₁, words, hf, hl, hwithin, hk, hw, hargs, rfl⟩ := hpost
    have hused := hm.used_le
    simp only [Config.used, List.length_cons, List.length_append] at hused
    -- what is called, up to the jump that leaves it
    have hentered := follows_enter ih hf hl hk.sound (hk.globals ▸ hr.globals) hw (R := Function.update R₁ .ra
      (Int64.ofNat (ip + inner.length + 2))) (by simpa using hk.hp) (Function.update_self _ _ _) hargs fun hlength =>
        ht.entering hx htarget hvs hq hlength hk.grows hwithin hargs.length_eq.symm (by omega)
    refine Machine.Comes.call (hpasses.begun hb) hm hjump hcalling hcalls hf.lt_size ?_ C.linked.size (fun _ _ => id)
      (Will.bind (hentered (hset.mono fun henough => ?_)) (fun _ _ => id) fun c hpost => will_done (exits_of_post hpost)) ?_
    · exact Nat.lt_of_le_of_lt (by simp [Nat.add_assoc]) hp.2
    · refine Enough.ample henough ?_ ?_ <;> simp only [List.length_cons, List.length_append] <;> omega
    · intro c hpost
      refine will_done ?_
      cases henter : enter C.program.arena (expr C.program.arena n) f outer vs.reverse w₁ with
      | error stop' w' =>
        rw [henter] at hpost
        exact hpost.elim
      | ok v w' =>
        rw [henter] at hpost
        obtain ⟨σ₂, R₂, word, hk₂, hrest⟩ := hpost
        refine ⟨σ₂, R₂, word, ⟨hk.grows.trans hk₂.grows, hk₂.globals.trans hk.globals, hk₂.sound, hk₂.fp, hk₂.hp⟩, ?_⟩
        simpa [Nat.add_assoc] using hrest

end Setting

end Reference

end Fool
