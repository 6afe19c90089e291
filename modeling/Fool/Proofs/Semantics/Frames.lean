import Fool.Proofs.Semantics.Forms

/-!
# Code that follows the evaluation of declarations

The values of the declarations of the program, and those of a function, lie one below the other: the frame is `Opened`
so far, the next value goes right below the last. `follows_declares` takes a list of declarations, one by one.

Fuel is `Ample` above a stack if it suffices for every expression there.
-/

namespace Fool

theorem Context.inClass_declareAll (Γ : Context) (Ds : List Declared) : (Γ.declareAll Ds).inClass = Γ.inClass := by
  cases Γ <;> rfl

theorem Context.inClass_bind (Γ : Context) (a : Arena) (ds : List DeclRef) : (Γ.bind a ds).inClass = Γ.inClass :=
  Γ.inClass_declareAll _

@[simp] theorem Context.length_bind (Γ : Context) (a : Arena) (ds : List DeclRef) : (Γ.bind a ds).length = Γ.length :=
  Γ.length_declareAll _

namespace Reference

/-- The values of the program are those on the stack, if the block is the outermost one. -/
def Store.settle (σ : Store) (s : List Int64) : Context → Store
  | [] => { σ with globals := s }
  | _ :: _ => σ

namespace Setting

variable (C : Setting)

/-- The fuel suffices for all expressions above the stack. -/
def Ample (n : Nat) (s : List Int64) : Prop :=
  (C.size - s.length) * (C.program.arena.nodes.size + 1) + C.program.arena.nodes.size ≤ n

/-- So many declarations have been evaluated, and the machine goes on at the address. -/
def GivesOpened (a i : Nat) (Γ : Context) (σ : Store) (s : List Int64) (next : Nat) (env : Env) (w : World) (c : Config) :
    Prop :=
  ∃ σ' s' R', σ.Grows σ' ∧ (Γ.length ≠ 1 → σ'.globals = σ.globals) ∧ s <:+ s' ∧ C.Opened a i env Γ σ' s' R' w ∧
    c = ⟨next, s', σ'.heap, R', w.output⟩

variable {C} {W : C.Watch} {Γ outer : Context} {blk : Block} {e body : ExprRef} {d : DeclRef} {ds ds' : List DeclRef} {x : Decl}
variable {code : Code} {a i k n ip next stop : Nat} {env env' : Env} {σ σ' : Store} {s s' : List Int64}
variable {R R' : Register → Int64} {w w' : World} {word : Int64}

theorem Ample.enough (h : C.Ample n s) (he : e.index < C.program.arena.nodes.size) : C.Enough n e s := by
  unfold Ample at h
  unfold Enough
  omega

theorem Ample.above (h : C.Ample n s) (hle : s.length ≤ s'.length) : C.Ample n s' := by
  have hmul : (C.size - s'.length) * (C.program.arena.nodes.size + 1) ≤
      (C.size - s.length) * (C.program.arena.nodes.size + 1) := Nat.mul_le_mul_right _ (by omega)
  unfold Ample at *
  omega

/-- A call takes a cell, which suffices for one level less. -/
theorem Enough.ample (h : C.Enough (n + 1) e s) (hlt : s.length < s'.length) (hle : s'.length ≤ C.size) : C.Ample n s' := by
  have hmul : (C.size - s'.length + 1) * (C.program.arena.nodes.size + 1) ≤
      (C.size - s.length) * (C.program.arena.nodes.size + 1) := Nat.mul_le_mul_right _ (by omega)
  rw [Nat.add_mul, Nat.one_mul] at hmul
  unfold Enough at h
  unfold Ample
  omega

theorem grows_settle (hg : σ.globals <:+ s) : ∀ Γ, σ.Grows (σ.settle s Γ)
  | [] => ⟨hg, List.prefix_refl _, List.prefix_refl _⟩
  | _ :: _ => .refl σ

theorem heap_settle (σ : Store) (s : List Int64) : ∀ Γ, (σ.settle s Γ).heap = σ.heap
  | [] | _ :: _ => rfl

theorem objects_settle (σ : Store) (s : List Int64) : ∀ Γ, (σ.settle s Γ).objects = σ.objects
  | [] | _ :: _ => rfl

theorem stack_settle (σ : Store) (s : List Int64) : ∀ Γ, (σ.settle s Γ).stack s Γ = s
  | [] | _ :: _ => rfl

/-- The objects lie where they lay. -/
theorem Sound.grow (h : C.Sound σ) (hσ : σ.Grows σ') (ho : σ'.objects = σ.objects) : C.Sound σ' := by
  refine ⟨fun hi => ?_, ho ▸ h.distinct⟩
  rw [ho] at hi
  exact (h.objects hi).grow hσ

theorem globals_settle (hg : σ.globals <:+ s) : ∀ Γ, (σ.settle s Γ).globals <:+ s
  | [] => List.suffix_refl s
  | _ :: _ => hg

/-- The block of a region with one more declaration. -/
theorem bind_concat (hr : C.program.Region Γ (ds ++ d :: ds') body) (hx : C.program.arena.decl? d = some x)
    (hblk : Γ.bind C.program.arena ds = blk :: outer) :
    Γ.bind C.program.arena (ds ++ [d]) = blk.declare x.declared :: outer := by
  rw [Context.bind_append, hblk]
  have hdepth : Context.depth (blk :: outer) = Γ.depth := by rw [← hblk, Context.depth_bind]
  rw [Context.bind, List.flatMap_singleton, hdepth,
    C.faultless.declares hr (List.mem_append_right _ List.mem_cons_self) hx]
  rfl

theorem offset_concat (hr : C.program.Region Γ (ds ++ d :: ds') body)
    (hblk : Γ.bind C.program.arena ds = blk :: outer) (x : Decl) :
    Block.offset blk.kind blk.declared x.declared = -(ds.length + 2) := by
  cases Γ with
  | nil => exact absurd rfl hr.rooted.ne_nil
  | cons b Γ =>
    cases hblk
    exact C.faultless.offset_decl hr x

/-- **The value of a declaration is pushed.** -/
theorem Opened.push (ho : C.Opened a ds.length env (Γ.bind C.program.arena ds) σ s R w)
    (hr : C.program.Region Γ (ds ++ d :: ds') body) (hx : C.program.arena.decl? d = some x)
    (hblk : Γ.bind C.program.arena ds = blk :: outer) (hk : C.Keeps σ R σ' R') (hw : w'.objects = σ'.values)
    (hroom : s.length < C.size)
    (henv : ∀ σ'', σ'.Grows σ'' → σ'' = σ'.settle (word :: s) outer → C.Located σ'' (word :: s) env (blk :: outer) a →
      C.Holds σ'' (σ''.stack (word :: s) outer) a (Block.offset blk.kind blk.declared x.declared) word →
      C.Located σ'' (word :: s) env' (blk.declare x.declared :: outer) a) :
    C.GivesOpened a (ds.length + 1) (Γ.bind C.program.arena (ds ++ [d])) σ s next env' w'
      ⟨next, word :: s, σ'.heap, R', w'.output⟩ := by
  have hg : σ'.globals <:+ word :: s := hk.globals ▸ ho.globals.trans (List.suffix_cons word s)
  have hgrows := grows_settle hg outer
  have hnext := ho.next
  have hlocated := ho.located.grow (hk.grows.trans hgrows) (List.suffix_cons word s)
  rw [bind_concat hr hx hblk]
  refine ⟨σ'.settle (word :: s) outer, word :: s, R', hk.grows.trans hgrows, fun hne => ?_, List.suffix_cons word s,
    ⟨hk.sound.grow hgrows (objects_settle _ _ _), globals_settle hg outer, ?_, ?_, hk.fp.trans ho.fp, ?_, ?_, fun hone => ?_⟩, ?_⟩
  · cases outer with
    | nil => exact absurd rfl hne
    | cons b outer => exact hk.globals
  · rw [hw, Store.values, Store.values, objects_settle]
  · rw [heap_settle, hk.hp]
  · refine henv _ hgrows rfl (hblk ▸ hlocated) ?_
    rw [offset_concat hr hblk, stack_settle]
    exact ⟨a - (ds.length + 2), by omega, cell_top (by omega)⟩
  · rw [List.length_cons]
    omega
  · obtain rfl : outer = [] := List.length_eq_zero_iff.1 (by simpa using hone)
    rfl
  · rw [heap_settle]

/-! ## Functions and classes -/

theorem forall₂_getElem? {α β : Type} {P : α → β → Prop} {xs : List α} {ys : List β} {i : Nat} {x : α}
    (h : List.Forall₂ P xs ys) (hx : xs[i]? = some x) : ∃ y, ys[i]? = some y ∧ P x y := by
  induction h generalizing i with
  | nil => cases hx
  | cons hxy _ ih =>
    cases i with
    | zero =>
      cases hx
      exact ⟨_, rfl, hxy⟩
    | succ i => exact ih hx

/-- The unit of a function stands where its label says. -/
theorem exists_address {f : Function} {entry : String} {inClass : Bool}
    (h : Generator.FunctionCoded C.program.arena (C.program.bind C.names).resolutions (Int64.ofNat C.size) inClass
      (C.DeclCoded k inClass) C.units f entry) : ∃ t, C.image.addressOf? entry = some t := by
  obtain ⟨locals, body, -, -, hmem⟩ := h
  obtain ⟨t, hplaced⟩ := C.placed _ hmem
  exact ⟨t, C.linked.labels hplaced.1⟩

/-- So do the units of the methods of a class. -/
theorem exists_entry_address {methods : List Function} {entries : List String} {inClass : Bool} {l : String}
    (h : List.Forall₂ (Generator.FunctionCoded C.program.arena (C.program.bind C.names).resolutions (Int64.ofNat C.size)
      inClass (C.DeclCoded k inClass) C.units) methods entries) (hl : l ∈ entries) :
    ∃ t, C.image.addressOf? l = some t := by
  obtain ⟨i, hi⟩ := List.getElem?_of_mem hl
  obtain ⟨m, -, hm⟩ := forall₂_getElem? h.flip hi
  exact exists_address hm

section Table

variable {Q : Config → Prop} {E : MachineError → List Int64 → Prop} {H out : List Int64}

/-- The entries of methods are written one behind the other, unless memory is almost full. -/
theorem will_table {entries : List String} (hentries : ∀ l ∈ entries, ∃ t, C.image.addressOf? l = some t)
    (hp : (W.upTo stop).Placed ip (entries.map fun l => .pushLabel l :: Code.pushToHeap).flatten)
    (hhp : R .hp = Int64.ofNat H.length) (he : ∀ ip, E (.stackOverflow ip) out)
    (h : ∀ xs R', List.Forall₂ (fun l x => ∃ t, C.image.addressOf? l = some t ∧ x = Int64.ofNat t) entries xs ∨
        C.size ≤ s.length + (H ++ xs).length + 1 → xs.length = entries.length →
        R' .hp = Int64.ofNat (H ++ xs).length → R' .fp = R .fp →
      Will (W.upTo stop) C.size Q E
        ⟨ip + (entries.map fun l => Instruction.pushLabel l :: Code.pushToHeap).flatten.length, s, H ++ xs, R', out⟩) :
    Will (W.upTo stop) C.size Q E ⟨ip, s, H, R, out⟩ := by
  induction entries generalizing ip H R with
  | nil => simpa using h [] R (.inl .nil) rfl (by simpa using hhp) rfl
  | cons l entries ih =>
    obtain ⟨t, ht⟩ := hentries l List.mem_cons_self
    rw [List.map_cons, List.flatten_cons] at hp
    obtain ⟨⟨hpush, htoHeap⟩, hrest⟩ := Image.placed_append.1 hp
    refine will_push hpush (by rw [Instruction.pushed?, Watch.addressOf?_eq, ht]; rfl) hhp he fun _ => ?_
    refine will_pushToHeap htoHeap hhp he fun x hx => ?_
    refine ih (fun l' hl' => hentries l' (List.mem_cons_of_mem _ hl')) hrest ?_ fun xs R' hxs hlength' hhp' hfp' => ?_
    · rw [Function.update_self, List.length_append, List.length_singleton]
    · have hgoal := h (x :: xs) R'
      have hlength : ip + ((l :: entries).map fun l => Instruction.pushLabel l :: Code.pushToHeap).flatten.length =
          ip + 1 + 6 + (entries.map fun l => Instruction.pushLabel l :: Code.pushToHeap).flatten.length := by
        rw [List.map_cons, List.flatten_cons, List.length_append, ← Nat.add_assoc]
        rfl
      rw [List.append_cons, hlength] at hgoal
      refine hgoal ?_ (congrArg (· + 1) hlength') hhp' (hfp'.trans (Function.update_of_ne (by decide) _ _))
      simp only [List.length_append, List.length_singleton] at hxs ⊢
      rcases hx with rfl | hfull
      · exact hxs.imp (.cons ⟨t, ht, rfl⟩) id
      · exact .inr (by omega)

end Table

/-- The table of a class is written. -/
theorem classAt_of_table {c : Class} {entries : List String} {xs H : List Int64}
    (hr : C.program.Region Γ (ds ++ d :: ds') body) (hx : C.program.arena.decl? d = some (.classDecl c))
    (hblk : Γ.bind C.program.arena ds = [blk])
    (hmethods : List.Forall₂ (Generator.FunctionCoded C.program.arena (C.program.bind C.names).resolutions
      (Int64.ofNat C.size) true (C.DeclCoded k true) C.units) c.methods entries)
    (htable : List.Forall₂ (fun l x => ∃ t, C.image.addressOf? l = some t ∧ x = Int64.ofNat t) entries xs) :
    C.ClassAt [blk.declare c.declared] c (H ++ xs) H.length := by
  have hdepth := C.faultless.depth_eq_zero hr (List.mem_append_right _ List.mem_cons_self) hx
  obtain ⟨-, hmain, -⟩ := hr.eq_main hdepth
  refine ⟨⟨d, hmain ▸ List.mem_append_right _ List.mem_cons_self, hx⟩, fun ms m ms' hms => ?_⟩
  have hm : c.methods[ms.length]? = some m := by rw [hms]; simp
  obtain ⟨entry, hentry, hcoded⟩ := forall₂_getElem? hmethods hm
  obtain ⟨x, hx', t, ht, rfl⟩ := forall₂_getElem? htable hentry
  have hregion := Program.Region.method hr hx hdepth hms
  rw [hblk] at hregion
  refine ⟨t, ⟨k, entry, hcoded, ht, hregion⟩, ?_⟩
  rw [List.getElem?_append_right (Nat.le_add_right _ _), Nat.add_sub_cancel_left, hx']

/-! ## Declarations -/

/-- The value of a variable stays on the stack. -/
theorem follows_varDecl {v : Variable} (ih : W.Simulates n) (hr : C.program.Region Γ (ds ++ d :: ds') body)
    (hx : C.program.arena.decl? d = some (.varDecl v)) (hcode : C.Coded Γ.inClass v.init code)
    (hp : (W.upTo stop).Embedded ip code) (hblk : Γ.bind C.program.arena ds = blk :: outer)
    (ho : C.Opened a ds.length env (Γ.bind C.program.arena ds) σ s R w)
    (ht : W.Told n env σ s (R .fp) w (.block (d :: ds') body)) :
    Follows (W.upTo stop) C.size (C.Ample n s) (declare C.program.arena (expr C.program.arena n) env d w)
      (C.GivesOpened a (ds.length + 1) (Γ.bind C.program.arena (ds ++ [d])) σ s (ip + code.length))
      ⟨ip, s, σ.heap, R, w.output⟩ := by
  unfold declare
  rw [hx]
  have hsite : C.program.Site (Γ.bind C.program.arena ds) v.init := .init hr hx (C.program.arena.mem_walk_self _)
  have hinit : C.Coded (Γ.bind C.program.arena ds).inClass v.init code := by
    rw [Context.inClass_bind]
    exact hcode
  refine follows_bind (fun v => prints_pure _) ((ih hsite hinit hp ho.ready (ht.init hx)).weaken fun h =>
    h.enough hinit.lt_size) ?_
  rintro value w' c' - ⟨σ', R', word, hk, hw, hv, rfl⟩
  refine fun _ => will_of_used fun hused => will_done (ho.push hr hx hblk hk hw ?_ ?_)
  · simp only [Config.used, List.length_cons] at hused
    omega
  · exact fun σ'' hgrows _ hl hh => .value hl (.inl rfl) hh (hv.grow hgrows)

/-- The address of a function stays on the stack. -/
theorem follows_funDecl {f : Function} {entry : String} (hr : C.program.Region Γ (ds ++ d :: ds') body)
    (hx : C.program.arena.decl? d = some (.funDecl f))
    (hcoded : Generator.FunctionCoded C.program.arena (C.program.bind C.names).resolutions (Int64.ofNat C.size) Γ.inClass
      (C.DeclCoded k Γ.inClass) C.units f entry)
    (hp : (W.upTo stop).Embedded ip [.pushLabel entry]) (hblk : Γ.bind C.program.arena ds = blk :: outer)
    (ho : C.Opened a ds.length env (Γ.bind C.program.arena ds) σ s R w) :
    Follows (W.upTo stop) C.size (C.Ample n s) (declare C.program.arena (expr C.program.arena n) env d w)
      (C.GivesOpened a (ds.length + 1) (Γ.bind C.program.arena (ds ++ [d])) σ s (ip + 1))
      ⟨ip, s, σ.heap, R, w.output⟩ := by
  unfold declare
  rw [hx]
  obtain ⟨t, ht⟩ := exists_address hcoded
  have hregion := Program.Region.function hr hx
  rw [hblk] at hregion
  have hclass : Context.inClass (blk.declare (f.declared .func) :: outer) = Γ.inClass := by
    rw [← Context.inClass_bind Γ C.program.arena ds, hblk]
    rfl
  have hfunction : C.FunctionAt (blk.declare (f.declared .func) :: outer) f t :=
    ⟨k, entry, hclass.symm ▸ hcoded, ht, hregion⟩
  intro _
  refine will_push hp.1.1 (by rw [Instruction.pushed?, Watch.addressOf?_eq, ht]; rfl) ho.hp (allowed_overflow (prints_pure _)) fun hroom => ?_
  refine will_done (ho.push hr hx hblk ho.ready.keeps ho.objects (by omega) ?_)
  exact fun σ'' hgrows _ hl hh => .func hl hfunction hh

/-- The table of the methods of a class is written behind the heap, and its address stays on the stack. -/
theorem follows_classDecl {c : Class} {entries : List String} (hr : C.program.Region Γ (ds ++ d :: ds') body)
    (hx : C.program.arena.decl? d = some (.classDecl c))
    (hmethods : List.Forall₂ (Generator.FunctionCoded C.program.arena (C.program.bind C.names).resolutions
      (Int64.ofNat C.size) true (C.DeclCoded k true) C.units) c.methods entries)
    (hp : (W.upTo stop).Embedded ip (.load .hp :: (entries.map fun l => .pushLabel l :: Code.pushToHeap).flatten))
    (hblk : Γ.bind C.program.arena ds = blk :: outer)
    (ho : C.Opened a ds.length env (Γ.bind C.program.arena ds) σ s R w) :
    Follows (W.upTo stop) C.size (C.Ample n s) (declare C.program.arena (expr C.program.arena n) env d w)
      (C.GivesOpened a (ds.length + 1) (Γ.bind C.program.arena (ds ++ [d])) σ s
        (ip + (.load .hp :: (entries.map fun l => .pushLabel l :: Code.pushToHeap).flatten : Code).length))
      ⟨ip, s, σ.heap, R, w.output⟩ := by
  unfold declare
  rw [hx]
  have hdepth := C.faultless.depth_eq_zero hr (List.mem_append_right _ List.mem_cons_self) hx
  obtain rfl : outer = [] := by
    have hlength : (Γ.bind C.program.arena ds).depth = 0 := by rw [Context.depth_bind, hdepth]
    rw [hblk] at hlength
    exact List.length_eq_zero_iff.1 hlength
  have hlocated := ho.located
  rw [hblk] at hlocated
  obtain rfl := hlocated.eq_size
  have hentries : ∀ l ∈ entries, ∃ t, C.image.addressOf? l = some t := fun l => exists_entry_address hmethods
  intro _
  have he := allowed_overflow (w := w) (prints_pure (Env.cls c env))
  obtain ⟨⟨hload, htable⟩, -⟩ := hp
  refine will_push hload rfl ho.hp he fun hroom => ?_
  rw [ho.hp]
  refine will_table hentries htable ho.hp he fun xs R' hxs _ hhp hfp => will_done ?_
  have hgrows : σ.Grows { σ with heap := σ.heap ++ xs } :=
    ⟨List.suffix_refl _, List.prefix_append _ _, List.prefix_refl _⟩
  rw [List.length_cons, ← Nat.add_assoc, Nat.add_right_comm]
  refine ho.push hr hx hblk ⟨hgrows, rfl, ho.sound.grow hgrows rfl, hfp, hhp⟩ ho.objects (by omega) ?_
  rintro σ'' - rfl hl hh
  refine .cls hl (fun hcrowded => ?_) hh
  rcases hxs with htable | hfull
  · exact classAt_of_table hr hx hblk hmethods htable
  · exact absurd hfull hcrowded

/-- **One declaration.** -/
theorem follows_declare (ih : W.Simulates n) (hr : C.program.Region Γ (ds ++ d :: ds') body)
    (hcode : C.DeclCoded k Γ.inClass d code) (hp : (W.upTo stop).Embedded ip code)
    (ho : C.Opened a ds.length env (Γ.bind C.program.arena ds) σ s R w)
    (ht : W.Told n env σ s (R .fp) w (.block (d :: ds') body)) :
    Follows (W.upTo stop) C.size (C.Ample n s) (declare C.program.arena (expr C.program.arena n) env d w)
      (C.GivesOpened a (ds.length + 1) (Γ.bind C.program.arena (ds ++ [d])) σ s (ip + code.length))
      ⟨ip, s, σ.heap, R, w.output⟩ := by
  obtain ⟨blk, outer, hblk⟩ : ∃ blk outer, Γ.bind C.program.arena ds = blk :: outer :=
    List.exists_cons_of_ne_nil (Context.bind_ne_nil _ _ hr.rooted.ne_nil)
  cases k with
  | zero => exact hcode.elim
  | succ k =>
    unfold DeclCoded at hcode
    rw [Generator.DeclCoded] at hcode
    cases hx : C.program.arena.decl? d with
    | none =>
      rw [hx] at hcode
      exact hcode.elim
    | some x =>
      rw [hx] at hcode
      cases x with
      | varDecl v => exact follows_varDecl ih hr hx hcode hp hblk ho ht
      | funDecl f =>
        obtain ⟨entry, hcoded, rfl⟩ := hcode
        exact follows_funDecl hr hx hcoded hp hblk ho
      | classDecl c =>
        obtain ⟨entries, hmethods, rfl⟩ := hcode
        exact follows_classDecl hr hx hmethods hp hblk ho

/-- **Declarations,** one behind the other. -/
theorem follows_declares {codes : List Code} (ih : W.Simulates n) (hcodes : List.Forall₂ (C.DeclCoded k Γ.inClass) ds' codes)
    (hr : C.program.Region Γ (ds ++ ds') body) (hp : (W.upTo stop).Embedded ip codes.flatten)
    (ho : C.Opened a ds.length env (Γ.bind C.program.arena ds) σ s R w)
    (ht : W.Told n env σ s (R .fp) w (.block ds' body)) :
    Follows (W.upTo stop) C.size (C.Ample n s) (ds'.foldlM (declare C.program.arena (expr C.program.arena n)) env w)
      (C.GivesOpened a (ds ++ ds').length (Γ.bind C.program.arena (ds ++ ds')) σ s (ip + codes.flatten.length))
      ⟨ip, s, σ.heap, R, w.output⟩ := by
  induction hcodes generalizing ds env σ s R w ip with
  | nil =>
    rw [List.append_nil]
    exact follows_pure ⟨σ, s, R, .refl σ, fun _ => rfl, List.suffix_refl s, ho, rfl⟩
  | @cons d code ds' codes hcode hcodes hrest =>
    rw [List.flatten_cons] at hp ⊢
    obtain ⟨hp, hp'⟩ := View.embedded_append.1 hp
    rw [List.foldlM_cons]
    have hprints : ∀ env, Prints (ds'.foldlM (declare C.program.arena (expr C.program.arena n)) env) :=
      prints_foldlM (prints_declare (prints_expr n)) ds'
    refine follows_bind hprints (follows_declare ih hr hcode hp ho ht) ?_
    rintro env' w' c' hrun ⟨σ', s', R', hgrows, hglobals, hs, ho', rfl⟩
    have hnext := ho.next
    have hnext' := ho'.next
    have ht' := ht.declared hrun hgrows hs (by omega)
    rw [ho.fp, ← ho'.fp] at ht'
    rw [List.append_cons] at hr ⊢
    have hlength : ds.length + 1 = (ds ++ [d]).length := by simp
    rw [hlength] at ho'
    refine ((hrest hr hp' ho' ht').weaken fun h => ?_).mono ?_
    · exact h.above hs.length_le
    · rintro env'' w'' c'' ⟨σ'', s'', R'', hgrows', hglobals', hs', ho'', rfl⟩
      rw [Context.length_bind] at hglobals hglobals'
      refine ⟨σ'', s'', R'', hgrows.trans hgrows', fun hne => ?_, hs.trans hs', ho'', ?_⟩
      · rw [Context.length_bind] at hne
        rw [hglobals' hne, hglobals hne]
      · rw [List.length_append, Nat.add_assoc]

end Setting

end Reference

end Fool
