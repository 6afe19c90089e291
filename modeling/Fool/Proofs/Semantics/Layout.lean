import Fool.Proofs.Semantics.Correct

/-!
# Places in memory

Binding counts places, and code puts words on the stack and into the heap; neither knows of the other.
`Setting.Layout` says where the words come to lie, and `layout_agrees` that these are the places that binding gives
(`Binder.Offsets`): the values of declarations right below the frame, the arguments of a call right above the access
link, the fields of an object below it and the entries of its methods in the table.

What lies where is said of the moment at which a run first arrives behind the code that puts it there
(`Setting.Brings`). Only a table that has been overwritten before that can have led it astray, and only if memory is too
small does it not arrive.
-/

namespace Fool

/-- Which class a name of the surroundings means. -/
theorem Reference.Env.name_of_class? {name : Symbol} {c : Class} {node : Reference.Env} :
    ∀ env : Reference.Env, env.class? name = some (c, node) → c.name = name
  | .top, h => by cases h
  | .value _ _ _ _ outer, h => name_of_class? outer h
  | .func _ outer, h => name_of_class? outer h
  | .cls c' outer, h => by
    rw [class?] at h
    split at h
    · cases h
      assumption
    · exact name_of_class? outer h
  | .frame outer, h => name_of_class? outer h
  | .object _ _ _ outer, h => name_of_class? outer h

namespace Reference

namespace Setting

variable (C : Setting)

/-- The name is in the surroundings, and what it is lies where the entry says, seen from the address. -/
def Lies (σ : Store) (s : List Int64) (env : Env) (a : Nat) (name : Symbol) (entry : Entry) : Prop :=
  ∃ node, env.find? name = some node ∧ C.Found σ s name entry a node

/-- The frame at the address holds one word for each declaration, the first two cells below the address. -/
structure FrameAt (Γ : Context) (ds : List DeclRef) (σ : Store) (env : Env) (a : Nat) (c : Config) : Prop where
  heap : c.heap = σ.heap
  fp : c.regs .fp = Int64.ofNat a
  next : a + c.stack.length = C.size + 1 + ds.length
  decl : ∀ {i : Nat} {d : DeclRef} {x : Decl}, ds[i]? = some d → C.program.arena.decl? d = some x →
    C.Lies σ c.stack env a x.name ⟨x.declared.kind, Γ.depth, -(i + 2), x.declared.ty⟩
  table : ∀ {i : Nat} {d : DeclRef} {cls : Class}, ds[i]? = some d → C.program.arena.decl? d = some (.classDecl cls) →
    ∃ T blk, C.Holds σ c.stack a (-(i + 2)) (Int64.ofNat T) ∧ (¬C.Crowded σ → C.ClassAt [blk] cls σ.heap T)

/-- Behind the prologue of a function: its frame lies on top of what was on the stack, the arguments around the access
link. -/
def GivesFrame (f : Function) (args : List Value) (base : List Int64) (env : Env) (_ : World) (c : Config) : Prop :=
  ∃ Γ σ a xs, C.program.Region (f.block :: Γ) f.locals f.body ∧ c.stack = xs ++ base ∧
    C.FrameAt (f.block :: Γ) f.locals σ env a c ∧
    ∀ j : Nat, (∀ v, args[j]? = some v → ∃ word, C.Holds σ c.stack a (j + 1) word ∧ C.Shown σ v word) ∧
      ∀ x, f.params[j]? = some x → C.Lies σ c.stack env a x.name ⟨.param, Γ.length, j + 1, x.ty.checked⟩

/-- The code that opens the frame of a function, and that of its local declarations behind it, end at the place. -/
def Prologue (f : Function) (entry place : Nat) : Prop :=
  ∃ k inClass l locals, List.Forall₂ (C.DeclCoded k inClass) f.locals locals ∧
    C.image.Embedded entry ([.label l, .copyFp, .load .ra] ++ locals.flatten) ∧ place = entry + 3 + locals.flatten.length

/-- The object lies at the address on top of the stack, and its fields below it. -/
def GivesFields (s : List Int64) (q : List Value × Value) (_ : World) (c : Config) : Prop :=
  ∃ σ a, c.stack = Int64.ofNat a :: s ∧ c.heap = σ.heap ∧ C.Shown σ q.2 (Int64.ofNat a) ∧
    ∀ (i : Nat) v, q.1[i]? = some v → ∃ word, C.Holds σ c.stack a (-(i + 1)) word ∧ C.Shown σ v word

/-- The machine is about to write the entry of a method to a cell of the heap. -/
def Writes (m : Function) (b : Nat) (s : List Int64) (c : Config) : Prop :=
  ∃ k entry t, Generator.FunctionCoded C.program.arena (C.program.bind C.names).resolutions (Int64.ofNat C.size) true
      (C.DeclCoded k true) C.units m entry ∧ C.image.addressOf? entry = some t ∧
    C.image.get? c.ip = some .storeWord ∧ c.stack = Int64.ofNat b :: Int64.ofNat t :: s

/-- **What a run brings to a place.** -/
structure Brings {α : Type} (m : Machine) (place : Nat) (r : EStateM.Result Stop World α) (Q : α → World → Config → Prop) :
    Prop where
  /-- If the evaluation gives a value, the run arrives there, unless memory is too small. -/
  attains : ∀ {x w}, r = .ok x w → m.Attains (m.Arrives place)
  /-- When the run first arrives there with all calls returned, the evaluation has given a value and the machine is as
  expected of it, unless a table has been overwritten on the way. -/
  arrives : ∀ {k m'}, m.Arrives place k m' →
    (∃ x w c, r = .ok x w ∧ Machine.Shows C.image C.size m' c ∧ Q x w c) ∨ m.Meets k Machine.Collides

/-- **Where the words come to lie** that code puts on the stack and into the heap. -/
structure Layout : Prop where
  /-- The declarations of the program lie below an unused cell. -/
  globals : ∀ {n k : Nat} {codes : List Code} {r}, List.Forall₂ (C.DeclCoded k false) C.program.declarations codes →
    C.image.Embedded 0 ([.push 0] ++ codes.flatten) →
    C.program.declarations.foldlM (declare C.program.arena (expr C.program.arena n)) .top ⟨[], []⟩ = r →
    Settled (C.Ample n []) r → C.Brings (.start C.image ⟨C.size, none⟩) (1 + codes.flatten.length) r
      fun env _ c => ∃ σ xs, c.stack = xs ++ [0] ∧ C.FrameAt [⟨.global, []⟩] C.program.declarations σ env C.size c
  /-- A call puts its arguments above the access link. -/
  call : ∀ {n ip : Nat} {Γ : Context} {e : ExprRef} {x : Expr} {target : EvalM (Function × Env)} {inner : Code} {env : Env}
    {σ : Store} {s : List Int64} {R : Register → Int64} {w : World} {m : Machine} {r}, C.program.Site Γ e →
    C.program.arena.expr? e = some x → target? env x = some target →
    C.Coded Γ.inClass e (.load .fp :: inner ++ [.jumpSub]) → C.image.Embedded ip (.load .fp :: inner ++ [.jumpSub]) →
    C.Ready env Γ σ s R w → Machine.Shows C.image C.size m ⟨ip, s, σ.heap, R, w.output⟩ →
    (x.operands.mapM (expr C.program.arena n env) >>= fun values => target >>= fun q => pure (q, values.reverse)) w = r →
    Settled (C.Enough (n + 1) e s) r →
    C.Brings m (ip + inner.length + 1) r (C.GivesCall env σ s R (ip + inner.length + 1))
  /-- What is called finds them there, and puts its local declarations below the address to return to. -/
  function : ∀ {n jump : Nat} {env outer : Env} {σ : Store} {s : List Int64} {R : Register → Int64} {f : Function}
    {args : List Value} {w : World} {c : Config} {m m₁ : Machine} {r}, σ.globals <:+ s →
    C.GivesCall env σ s R jump ((f, outer), args) w c → Machine.Shows C.image C.size m c →
    C.image.get? jump = some .jumpSub → Machine.Next m m₁ → args.length = f.params.length →
    f.locals.foldlM (declare C.program.arena (expr C.program.arena n)) (bindParams (.frame outer) (f.params.zip args)) w = r →
    Settled (C.Ample n c.stack.tail) r → ∃ place, C.Prologue f m₁.ip place ∧
      C.Brings m₁ place r (C.GivesFrame f args (Int64.ofNat (jump + 1) :: c.stack.tail))
  /-- The arguments of `new` become the fields of an object. -/
  object : ∀ {n ip : Nat} {Γ : Context} {e : ExprRef} {name : Symbol} {args : List ExprRef} {code : Code} {env : Env}
    {σ : Store} {s : List Int64} {R : Register → Int64} {w : World} {m : Machine} {r}, C.program.Site Γ e →
    C.program.arena.expr? e = some (.new name args) → C.Coded Γ.inClass e code → C.image.Embedded ip code →
    C.Ready env Γ σ s R w → Machine.Shows C.image C.size m ⟨ip, s, σ.heap, R, w.output⟩ →
    (args.mapM (expr C.program.arena n env) >>= fun values => construct env name values >>= fun v => pure (values, v)) w = r →
    Settled (C.Enough (n + 1) e s) r → C.Brings m (ip + code.length) r (C.GivesFields s)
  /-- The entries of the methods of a class are written behind the heap, in their order. -/
  table : ∀ {n ip i : Nat} {inClass : Bool} {d : DeclRef} {cls : Class} {f : Function} {code : Code}
    {s H : List Int64} {R : Register → Int64} {w : World} {m : Machine}, C.program.arena.decl? d = some (.classDecl cls) →
    C.DeclCoded n inClass d code → C.image.Embedded ip code → R .hp = Int64.ofNat H.length → cls.methods[i]? = some f →
    Machine.Shows C.image C.size m ⟨ip, s, H, R, w.output⟩ → C.Brings m (ip + 7 * i + 3) (.ok () w) fun _ _ =>
      C.Writes f (H.length + i) (Int64.ofNat H.length :: s)

variable {C : Setting} {Γ : Context} {ds : List DeclRef} {d : DeclRef} {body : ExprRef} {env : Env} {σ : Store} {a b i : Nat}
variable {s : List Int64} {R : Register → Int64} {w : World} {name : Symbol} {entry : Entry}

/-! ## Frames -/

/-- At its own depth a place sees its own frame. -/
theorem Located.eq_of_reaches (h : C.Located σ s env Γ a) (hr : C.Reaches σ s Γ a Γ.depth b) : b = a := by
  unfold Reaches at hr
  split at hr
  · rename_i hcond
    obtain ⟨blk, rfl⟩ := exists_block h.ne_nil hcond.2
    exact hr.trans h.eq_size.symm
  · rw [Nat.sub_self] at hr
    exact Eq.symm hr

/-- What the innermost block declares lies in the innermost frame. -/
theorem Opened.lies {n : Nat} (ho : C.Opened a n env Γ σ s R w) (hd : Γ.Distinct) (hlook : Γ.lookup? name = some entry)
    (hdepth : entry.depth = Γ.depth) : C.Lies σ s env a name entry := by
  obtain ⟨node, b, hfind, -, hreach, hfound, -⟩ := ho.located.find ho.globals hd hlook
  rw [hdepth] at hreach
  obtain rfl := ho.located.eq_of_reaches hreach
  exact ⟨node, hfind, hfound⟩

/-- The table of a class lies where the declaration of the class has its place. -/
theorem Opened.table {n : Nat} {cls : Class} (ho : C.Opened a n env (Γ.bind C.program.arena ds) σ s R w)
    (hr : C.program.Region Γ ds body) (hd : ds[i]? = some d) (hx : C.program.arena.decl? d = some (.classDecl cls)) :
    ∃ T blk, C.Holds σ s a (-(i + 2)) (Int64.ofNat T) ∧ (¬C.Crowded σ → C.ClassAt [blk] cls σ.heap T) := by
  have hmem := List.mem_of_getElem? hd
  have hlook := C.faultless.lookup?_decl hr hd hx
  have hdistinct := (C.faultless.clean_bind hr).distinct
  have hdepth := C.faultless.depth_eq_zero hr hmem hx
  have hlocated := ho.located
  obtain ⟨blk, hblk⟩ := exists_block hlocated.ne_nil ((Context.depth_bind _ _ _).trans hdepth)
  rw [hblk] at hlook hdistinct hlocated
  rw [Context.lookup?, Context.lookup?, Option.or_none] at hlook
  obtain ⟨cls', outer, blk', T, hclass, -, htable, hholds⟩ := hlocated.find_class rfl hdistinct rfl hlook
  obtain rfl := hlocated.eq_size
  refine ⟨T, blk', hholds.grow (.refl σ) ho.globals, fun hcrowded => ?_⟩
  obtain ⟨d', hd', hx'⟩ := (htable hcrowded).1
  obtain rfl := C.faultless.class_eq hd' hx' (C.faultless.mem_declarations hr hmem hx) hx (Env.name_of_class? env hclass)
  exact htable hcrowded

/-- **An opened frame holds the declarations at their places.** -/
theorem Opened.frame {ip : Nat} (ho : C.Opened a ds.length env (Γ.bind C.program.arena ds) σ s R w)
    (hr : C.program.Region Γ ds body) : C.FrameAt Γ ds σ env a ⟨ip, s, σ.heap, R, w.output⟩ where
  heap := rfl
  fp := ho.fp
  next := ho.next
  decl hd hx := ho.lies (C.faultless.clean_bind hr).distinct (C.faultless.lookup?_decl hr hd hx)
    (Context.depth_bind _ _ _).symm
  table hd hx := ho.table hr hd hx

/-- Code that follows an evaluation up to a place brings there what the evaluation gives. -/
theorem brings_of_follows {α : Type} {H : Prop} {r : EStateM.Result Stop World α} {Q : α → World → Config → Prop}
    {place : Nat} {c : Config} {m : Machine} (h : Follows ((Watch.every C m).upTo place) C.size H r Q c) (hset : Settled H r)
    (hm : Machine.Shows C.image C.size m c) (hQ : ∀ x w c', Q x w c' → c'.ip = place) : C.Brings m place r Q where
  attains hrun := h.attains hrun .refl hm hQ
  arrives ha := h.arrives hset .refl hm hQ ha

theorem Brings.mono {α : Type} {r : EStateM.Result Stop World α} {Q Q' : α → World → Config → Prop} {place : Nat}
    {m : Machine} (h : C.Brings m place r Q) (hQ : ∀ x w c, Q x w c → Q' x w c) : C.Brings m place r Q' where
  attains := h.attains
  arrives ha := by
    refine (h.arrives ha).imp_left ?_
    rintro ⟨x, w, c, hr, hm, hq⟩
    exact ⟨x, w, c, hr, hm, hQ x w c hq⟩

/-- Where all stages are under watch, what runs in the frame of a function belongs to one. -/
theorem entering_every {m : Machine} {f : Function} {outer : Env} {args : List Value} {words : List Int64} {ret : Int64}
    {n : Nat} (hl : C.Located σ words outer Γ b) (hused : words.length + σ.heap.length ≤ C.size) :
    Entering (.every C m) n f outer args σ (ret :: Int64.ofNat b :: words) w := by
  intro a ha
  obtain ⟨chain, hchain⟩ := hl.exists_anchored hused
  simp only [List.length_cons] at ha
  refine ⟨_, (hchain.enter ret ?_).params _, trivial⟩
  rw [List.length_cons]
  omega

/-- **The frame of a function that is called.** -/
theorem GivesCall.brings_frame {n jump : Nat} {f : Function} {outer : Env} {args : List Value} {c : Config}
    {m m₁ : Machine} {r} (hg : σ.globals <:+ s) (h : C.GivesCall env σ s R jump ((f, outer), args) w c)
    (hm : Machine.Shows C.image C.size m c) (hi : C.image.get? jump = some .jumpSub) (hnext : Machine.Next m m₁)
    (hlength : args.length = f.params.length) (hrun : f.locals.foldlM (declare C.program.arena (expr C.program.arena n))
      (bindParams (.frame outer) (f.params.zip args)) w = r) (hset : Settled (C.Ample n c.stack.tail) r) :
    ∃ place, C.Prologue f m₁.ip place ∧ C.Brings m₁ place r (C.GivesFrame f args (Int64.ofNat (jump + 1) :: c.stack.tail)) := by
  obtain ⟨Γ, t, b, σ₁, R₁, words, hf, hl, -, hk, hw, hargs, rfl⟩ := h
  obtain ⟨m₂, hstep, hm₂⟩ := exists_jumpSub (V := (Watch.every C m₁).inside) hi hf.lt_size C.linked.size hm
  obtain rfl := hstep.next.unique hnext
  have hused := hm₂.used_le
  simp only [Config.used, List.length_cons] at hused
  obtain ⟨k, entry, locals, body, hlocals, -, hplaced⟩ := hf.unit
  rw [← List.append_assoc] at hplaced
  have hprologue : C.image.Embedded t ([.label entry, .copyFp, .load .ra] ++ locals.flatten) :=
    (Image.embedded_append.1 hplaced.front).1
  obtain rfl := hm₂.ip
  refine ⟨_, ⟨k, _, entry, locals, hlocals, hprologue, rfl⟩, ?_⟩
  have hg₁ : σ₁.globals <:+ R .fp :: s := hk.globals ▸ hg.trans (List.suffix_cons _ s)
  have hplaced' : ((Watch.every C m₂).upTo (m₂.ip + 3 + locals.flatten.length)).Embedded m₂.ip
      ([.label entry, .copyFp, .load .ra] ++ locals.flatten) :=
    hprologue.upTo (by simp only [List.length_append, List.length_cons, List.length_nil]; omega)
  have hra : Function.update R₁ .ra (Int64.ofNat (jump + 1)) .ra = Int64.ofNat (jump + 1) := Function.update_self _ _ _
  have hfollows := follows_prologue (simulates (.every C m₂) n) hf hlocals hplaced' hl hk.sound hg₁ hw
    (by simpa using hk.hp) hra hargs hlength (entering_every hl (by omega))
  subst hrun
  refine (brings_of_follows hfollows hset hm₂ ?_).mono ?_
  · rintro env w c ⟨σ₂, xs, R₃, a, -, -, -, -, -, rfl⟩
    rfl
  · rintro env w c ⟨σ₂, xs, R₃, a, hgrows, -, -, ha, ho, rfl⟩
    refine ⟨Γ, σ₂, a, xs, hf.region, rfl, ho.frame hf.region, fun j => ⟨fun v hv => ?_, fun x hx => ?_⟩⟩
    · obtain ⟨word, hword, hshown⟩ := forall₂_getElem? hargs hv
      have hlink : a + (Int64.ofNat b :: (words ++ R .fp :: s)).length = C.size := by
        simp only [List.length_cons] at ha ⊢
        omega
      have hsuffix := (List.suffix_cons (Int64.ofNat (jump + 1)) (Int64.ofNat b :: (words ++ R .fp :: s))).trans
        (List.suffix_append xs _)
      exact ⟨word, (holds_argument hword hlink).grow hgrows hsuffix, hshown.grow hgrows⟩
    · refine ho.lies (C.faultless.clean_bind hf.region).distinct (C.faultless.lookup?_param hf.region hx) ?_
      rw [Context.depth_bind]
      rfl

/-! ## Tables -/

theorem length_entries (entries : List String) :
    (entries.map fun l => .pushLabel l :: Code.pushToHeap : List Code).flatten.length = 7 * entries.length := by
  induction entries with
  | nil => rfl
  | cons l entries ih =>
    rw [List.map_cons, List.flatten_cons, List.length_append, ih, List.length_cons, List.length_cons]
    simp [Code.pushToHeap, Code.bumpHeap]
    omega

/-- The entry of a method is written behind those of the methods before it. -/
theorem will_write {W : C.Watch} {stop : Nat} {E : MachineError → List Int64 → Prop} {H out : List Int64} {ip t : Nat}
    {front : List String} {l : String} {f : Function} (hfront : ∀ l ∈ front, ∃ t, C.image.addressOf? l = some t)
    (hl : C.image.addressOf? l = some t) (hcoded : ∃ k, Generator.FunctionCoded C.program.arena
      (C.program.bind C.names).resolutions (Int64.ofNat C.size) true (C.DeclCoded k true) C.units f l)
    (hp : (W.upTo stop).Placed ip
      ((front.map fun l => .pushLabel l :: Code.pushToHeap).flatten ++ [Instruction.pushLabel l, .load .hp]))
    (hstore : C.image.get? (ip + 7 * front.length + 2) = some .storeWord)
    (hhp : R .hp = Int64.ofNat H.length) (he : ∀ ip, E (.stackOverflow ip) out) :
    Will (W.upTo stop) C.size (fun c => c.ip = ip + 7 * front.length + 2 ∧ C.Writes f (H.length + front.length) s c) E
      ⟨ip, s, H, R, out⟩ := by
  obtain ⟨k, hcoded⟩ := hcoded
  obtain ⟨hbefore, hpush, hload, -⟩ := Image.placed_append.1 hp
  rw [length_entries] at hpush hload
  refine will_table hfront hbefore hhp he fun xs R' _ hlength hhp' _ => ?_
  rw [length_entries]
  refine will_push hpush (by rw [Instruction.pushed?, Watch.addressOf?_eq, hl]; rfl) hhp' he fun _ => ?_
  refine will_push hload rfl hhp' he fun _ => will_done ⟨rfl, k, l, t, hcoded, hl, hstore, ?_⟩
  rw [hhp', List.length_append, hlength]

/-- The code of a class. -/
theorem DeclCoded.of_classDecl {n : Nat} {inClass : Bool} {cls : Class} {code : Code} (h : C.DeclCoded n inClass d code)
    (hx : C.program.arena.decl? d = some (.classDecl cls)) : ∃ k entries,
      List.Forall₂ (Generator.FunctionCoded C.program.arena (C.program.bind C.names).resolutions (Int64.ofNat C.size) true
        (C.DeclCoded k true) C.units) cls.methods entries ∧
      code = .load .hp :: (entries.map fun l => .pushLabel l :: Code.pushToHeap).flatten := by
  cases n with
  | zero => exact h.elim
  | succ k =>
    unfold DeclCoded at h
    rw [Generator.DeclCoded, hx] at h
    exact ⟨k, h⟩

/-- **The entry of each method is written,** to the cell that its position says. -/
theorem DeclCoded.writes {n ip i : Nat} {inClass : Bool} {cls : Class} {f : Function} {code : Code}
    {s H : List Int64} {m : Machine} (hcode : C.DeclCoded n inClass d code)
    (hx : C.program.arena.decl? d = some (.classDecl cls)) (hp : C.image.Embedded ip code)
    (hhp : R .hp = Int64.ofNat H.length) (hf : cls.methods[i]? = some f)
    (hm : Machine.Shows C.image C.size m ⟨ip, s, H, R, w.output⟩) : C.Brings m (ip + 7 * i + 3) (.ok () w) fun _ _ =>
      C.Writes f (H.length + i) (Int64.ofNat H.length :: s) := by
  obtain ⟨k', entries, hmethods, rfl⟩ := hcode.of_classDecl hx
  obtain ⟨hi, hf⟩ := List.getElem?_eq_some_iff.1 hf
  rw [← List.take_append_drop i cls.methods, List.drop_eq_getElem_cons hi, hf] at hmethods
  obtain ⟨front, back, hfront, hback, rfl⟩ := forall₂_split hmethods
  have hlength : front.length = i := hfront.length_eq.symm.trans (List.length_take_of_le hi.le)
  subst hlength
  cases hback with
  | @cons _ l _ back hcoded _ =>
    obtain ⟨t, ht⟩ := exists_address hcoded
    -- in front of the place there are the entries before, the entry and the address of the cell
    have hsplit : (.load .hp :: ((front ++ l :: back).map fun l => .pushLabel l :: Code.pushToHeap).flatten : Code) =
        ([.load .hp] ++ ((front.map fun l => .pushLabel l :: Code.pushToHeap).flatten ++ [.pushLabel l, .load .hp])) ++
          (.storeWord :: (Code.bumpHeap ++ (back.map fun l => .pushLabel l :: Code.pushToHeap).flatten)) := by
      simp [Code.pushToHeap]
    rw [hsplit] at hp
    obtain ⟨hbefore, ⟨hstore, -⟩, -⟩ := Image.embedded_append.1 hp
    have hat : ip + ([.load .hp] ++ ((front.map fun l => .pushLabel l :: Code.pushToHeap).flatten ++
        [.pushLabel l, .load .hp]) : Code).length = ip + 7 * front.length + 3 := by
      rw [List.length_append, List.length_append, length_entries]
      simp only [List.length_cons, List.length_nil]
      omega
    rw [hat] at hstore
    have hbefore' : ((Watch.every C m).upTo (ip + 7 * front.length + 3)).Embedded ip _ := hbefore.upTo (Nat.le_of_eq hat)
    obtain ⟨hload, hbefore'⟩ := hbefore'.1
    have hplace : ip + 1 + 7 * front.length + 2 = ip + 7 * front.length + 3 := by omega
    have hfull (ip : Nat) : Allowed (.ok () w : EStateM.Result Stop World Unit) (.stackOverflow ip) w.output :=
      .inl ⟨⟨ip, rfl⟩, List.prefix_refl _⟩
    have hwill : Will ((Watch.every C m).upTo (ip + 7 * front.length + 3)) C.size _ (Allowed (.ok () w))
        ⟨ip + 1, Int64.ofNat H.length :: s, H, R, w.output⟩ :=
      will_write (fun l hl => exists_entry_address hfront hl) ht ⟨k', hcoded⟩ hbefore' (hplace ▸ hstore) hhp hfull
    rw [hplace] at hwill
    have hfollows : Follows ((Watch.every C m).upTo (ip + 7 * front.length + 3)) C.size True (.ok () w)
        (fun _ _ c => c.ip = ip + 7 * front.length + 3 ∧ C.Writes f (H.length + front.length) (Int64.ofNat H.length :: s) c)
        ⟨ip, s, H, R, w.output⟩ := fun _ => will_push hload rfl hhp hfull fun _ => by rw [hhp]; exact hwill
    exact (brings_of_follows hfollows trivial hm fun _ _ _ => And.left).mono fun _ _ _ => And.right

/-! ## Expressions -/

section Expressions

open Generator

variable {e : ExprRef} {args : List ExprRef} {code : Code} {inClass : Bool}

/-- The code of the making of an object. -/
theorem Coded.of_new {name : Symbol} (h : C.Coded inClass e code)
    (hx : C.program.arena.expr? e = some (.new name args)) : ∃ codes r,
      (C.program.bind C.names).resolutions.get? e = some r ∧ List.Forall₂ (C.Coded inClass) args codes ∧
      code = codes.flatten ++ Code.object args.length (Int64.ofNat C.size + Int64.ofInt r.entry.offset) := by
  cases h with
  | new hx' hget hcodes =>
    cases hx.symm.trans hx'
    exact ⟨_, _, hget, hcodes, by simp [Code.object, Code.describe]⟩
  | _ => cases hx.symm.trans ‹_›

end Expressions

/-! ## All places -/

variable (C) in
/-- **Code puts its words where they are expected.** -/
theorem layout : C.Layout where
  globals hcodes hp hrun hset := by
    subst hrun
    refine (brings_of_follows (follows_globals hcodes (hp.upTo ?_) ⟨[.frame 0], .top, trivial⟩) hset
      (Machine.shows_start C.bound) ?_).mono ?_
    · simp [Nat.add_comm]
    · rintro env w c ⟨σ, s, R, -, -, -, -, rfl⟩
      rfl
    · rintro env w c ⟨σ, s, R, -, -, ⟨xs, rfl⟩, ho, rfl⟩
      exact ⟨σ, xs, rfl, ho.frame .main⟩
  call hs hx htarget hcode hp hr hm hrun hset := by
    subst hrun
    refine brings_of_follows (follows_arguments (simulates (.every C _) _) hs hx htarget hcode ?_ hr
      (Watch.told_every hr hm.used_le)) hset hm ?_
    · exact (Image.embedded_append.1 hp).1.upTo (by rw [List.length_cons]; omega)
    · rintro q w c ⟨Γ', t, b, σ', R', words, -, -, -, -, -, -, rfl⟩
      rfl
  function hg h hm hi hnext hlength hrun hset := h.brings_frame hg hm hi hnext hlength hrun hset
  object hs hx hcode hp hr hm hrun hset := by
    obtain ⟨codes, r, hget, hcodes, rfl⟩ := hcode.of_new hx
    subst hrun
    refine (brings_of_follows (follows_new (simulates (.every C _) _) hs hx hget hcodes rfl (hp.upTo (Nat.le_refl _)) hr
      (Watch.told_every hr hm.used_le)) hset hm ?_).mono ?_
    · rintro ⟨values, v⟩ w c ⟨σ', R', id, o, a, -, -, -, -, -, rfl⟩
      rfl
    · rintro ⟨values, v⟩ w c ⟨σ', R', id, o, a, hk, -, rfl, ho, rfl, rfl⟩
      refine ⟨σ', a, rfl, rfl, .object ho, fun i v hv => ?_⟩
      obtain ⟨b, word, hb, hword, hshown⟩ := (hk.sound.objects ho).fields hv
      exact ⟨word, ⟨b, by omega, .inl hword⟩, hshown⟩
  table hx hcode hp hhp hf hm := hcode.writes hx hp hhp hf hm

end Setting

end Reference

section Programs

open Reference

variable {p : Program} {names : Names}

/-- **Binding and code agree about every place.** The code of a program without faults, loaded for a memory of any size,
puts the values of declarations, the arguments of calls, the fields of objects and the entries of methods where binding
expects them. -/
theorem layout_agrees {text : String} {names' : Names} (hparse : Program.parse text names = (.ok p, names'))
    (hbind : (p.bind names').errors = []) :
    Binder.Offsets p names' ∧ ∀ {M : Nat} {code : Code}, M < 2 ^ 63 → code.length ≤ 2 ^ 63 →
      p.generate (p.bind names') (Int64.ofNat M) = .ok code →
      ∃ (C : Setting) (decls : List Code) (body : Code), C.program = p ∧ C.names = names' ∧ C.size = M ∧
        Image.load code = .ok C.image ∧
        List.Forall₂ (C.DeclCoded (p.arena.decls.size + 1) false) p.declarations decls ∧ C.Coded false p.body body ∧
        C.image.Placed 0 ((if p.declarations.isEmpty then [] else [.push 0]) ++ decls.flatten ++ body ++ [.halt]) ∧
        C.Layout := by
  have hfaultless : Binder.Faultless p names' := ⟨placed_of_parse hparse, hbind⟩
  refine ⟨hfaultless.offsets, fun hM hlength hcode => ?_⟩
  obtain ⟨C, decls, body, rfl, rfl, rfl, hload, hmain⟩ := exists_setting hfaultless hcode hM hlength
  exact ⟨C, decls, body, rfl, rfl, rfl, hload, hmain.declared, hmain.coded, hmain.placed, C.layout⟩

/-- In a memory of 100 cells the run arrives where the code of the declarations ends, and the frame of the program holds
them. -/
theorem layout_agrees_makerCall : Binder.Offsets makerCall makerNames ∧
    ∃ (C : Setting) (decls : List Code) (k : Nat) (m : Machine) (env : Env) (c : Config), C.program = makerCall ∧
      C.size = 100 ∧ C.Layout ∧
      List.Forall₂ (C.DeclCoded (makerCall.arena.decls.size + 1) false) makerCall.declarations decls ∧
      C.image.Embedded 0 ([.push 0] ++ decls.flatten) ∧
      (Machine.start C.image ⟨100, none⟩).Arrives (1 + decls.flatten.length) k m ∧ Machine.Shows C.image 100 m c ∧
      ∃ σ xs, c.stack = xs ++ [0] ∧ C.FrameAt [⟨.global, []⟩] makerCall.declarations σ env 100 c := by
  obtain ⟨code, image, hcode, hlength, hload, hroomy⟩ := generate_makerCall
  obtain ⟨hoffsets, hlayout⟩ := layout_agrees parse_makerCall bind_makerCall
  obtain ⟨C, decls, body, hprogram, -, hsize, hload', hdecls, -, hplaced, hC⟩ := hlayout (by decide) hlength hcode
  obtain rfl := Except.ok.inj (hload.symm.trans hload')
  have hembedded : C.image.Embedded 0 ([.push 0] ++ decls.flatten) := (Image.embedded_append.1 hplaced.front).1
  have hbrings := hC.globals (n := 4) (hprogram ▸ hdecls) hembedded rfl (by rw [hprogram]; trivial)
  rw [hsize, hprogram] at hbrings
  obtain ⟨k, m, ha⟩ := hroomy.attained ⟨0, fun _ => rfl⟩ (hbrings.attains rfl)
  rcases hbrings.arrives ha with ⟨env, w, c, -, hm, hframe⟩ | ⟨j, -, m₁, hthere, hc⟩
  · exact ⟨hoffsets, C, decls, k, m, env, c, hprogram, hsize, hC, hdecls, hembedded, ha, hsize ▸ hm, hframe⟩
  · exact absurd hc (hroomy.not_collides hthere)

end Programs

end Fool
