import Fool.Proofs.Codegen.Labels
import Fool.Proofs.Machine.Load
import Fool.Proofs.Machine.Steady
import Fool.Proofs.Semantics.Objects

/-!
# Programs run as they evaluate
-/

namespace Fool

namespace Reference

namespace Setting

/-- **Evaluation is followed by code.** -/
theorem simulates {C : Setting} (W : C.Watch) (n : Nat) : W.Simulates n := by
  induction n with
  | zero =>
    intro Γ e code stop ip env σ s R w hs hcode hp hr ht hset
    have henough : C.Enough 0 e s := hset
    unfold Enough at henough
    omega
  | succ n ih =>
    intro Γ e code stop ip env σ s R w hs hcode hp hr ht
    cases hcode with
    | int hx => exact followed_push (by rw [expr, hx]; rfl) hp hr
    | bool hx => exact followed_push (by rw [expr, hx]; rfl) hp hr
    | null hx => exact followed_push (by rw [expr, hx]; rfl) hp hr
    | binary hx hne hfirst hsecond htail => exact followed_binary ih hs hx hne hfirst hsecond htail hp hr ht
    | greaterEqual hx hfirst hsecond htail => exact followed_greaterEqual ih hs hx hfirst hsecond htail hp hr ht
    | not hx hcode => exact followed_not ih hs hx hcode hp hr ht
    | ifElse hx htest hyes hno => exact followed_ifElse ih hs hx htest hyes hno hp hr ht
    | print hx hcode => exact followed_print ih hs hx hcode hp hr ht
    | name hx hget => exact followed_name hs hx hget hp hr
    | call hx hget hcodes => exact followed_calling ih hs hx rfl (.call hx hget hcodes) hp hr ht
    | methodCall hx hget hm hcodes => exact followed_calling ih hs hx rfl (.methodCall hx hget hm hcodes) hp hr ht
    | new hx hget hcodes =>
      exact followed_new ih hs hx hget hcodes (by simp [Code.object, Code.describe]) hp hr ht

variable {C : Setting} {W : C.Watch} {decls : List Code} {body code : Code} {ip k n : Nat} {env : Env} {σ : Store}
variable {s : List Int64} {R : Register → Int64} {w : World}

variable (C) in
/-- The value of the program is on the stack, and the machine stands at the end of the main part. -/
def Halts (v : Value) (w : World) (c : Config) : Prop :=
  ∃ word, (∀ x, v = .int x → word = x) ∧ c.stack.head? = some word ∧ c.output = w.output ∧ C.image.get? c.ip = some .halt

variable (C) in
/-- **The main part of the code** stands at the beginning: the declarations behind an unused cell, the body and `halt`. -/
structure Main (decls : List Code) (body : Code) : Prop where
  declared : List.Forall₂ (C.DeclCoded (C.program.arena.decls.size + 1) false) C.program.declarations decls
  coded : C.Coded false C.program.body body
  placed : C.image.Placed 0
    ((if C.program.declarations.isEmpty then [] else [Instruction.push 0]) ++ decls.flatten ++ body ++ [Instruction.halt])

/-- Where the body of the program is evaluated. -/
theorem follows_body (hbody : C.Coded false C.program.body body) (hp : C.image.Placed ip (body ++ [Instruction.halt]))
    (hr : C.Ready env (Context.bind [⟨.global, []⟩] C.program.arena C.program.declarations) σ s R w)
    (ht : W.Told n env σ s (R .fp) w (.expr C.program.body)) :
    Follows W.inside C.size (C.Ample n s) (expr C.program.arena n env C.program.body w) C.Halts
      ⟨ip, s, σ.heap, R, w.output⟩ := by
  have hsite := Program.Site.body (Program.Region.main (p := C.program)) (C.program.arena.mem_walk_self C.program.body)
  have hcode : C.Coded (Context.inClass (Context.bind [⟨.global, []⟩] C.program.arena C.program.declarations))
      C.program.body body := by
    rw [Context.inClass_bind]
    exact hbody
  have hp' := W.inside.embedded_front hp.inside
  refine ((simulates W n hsite hcode hp' hr ht).weaken fun h => h.enough hbody.lt_size).mono ?_
  rintro v w c ⟨σ', R', word, -, -, hv, rfl⟩
  refine ⟨word, ?_, rfl, rfl, (Image.placed_append.1 hp).2.1⟩
  rintro x rfl
  cases hv
  rfl

/-- The registers at the start. -/
def firstRegisters (M : Nat) (r : Register) : Int64 := if r = .fp then Int64.ofNat M else 0

/-- Before anything has been evaluated there are no objects. -/
theorem sound_globals (globals : List Int64) : C.Sound ⟨globals, [], []⟩ :=
  ⟨fun h => (List.not_mem_nil (List.mem_of_getElem? h)).elim, List.nodup_nil⟩

/-- Where the evaluation of the program begins, with so many words on the stack. -/
theorem told_first (hstage : W.stage (firstStage C.program n)) (first : List Int64)
    (hlen : first.length = if C.program.declarations.isEmpty then 0 else 1) :
    W.Told n .top ⟨first, [], []⟩ first (Int64.ofNat C.size) ⟨[], []⟩ (.block C.program.declarations C.program.body) :=
  ⟨[.frame 0], .top, hlen ▸ hstage⟩

/-- **The declarations of the program** are evaluated behind an unused cell, in the frame at the end of memory. -/
theorem follows_globals (hdecls : List.Forall₂ (C.DeclCoded k false) C.program.declarations decls)
    {stop : Nat} (hp : (W.upTo stop).Embedded 0 ([.push 0] ++ decls.flatten))
    (ht : W.Told n .top ⟨[0], [], []⟩ [0] (Int64.ofNat C.size) ⟨[], []⟩ (.block C.program.declarations C.program.body)) :
    Follows (W.upTo stop) C.size (C.Ample n [])
      (C.program.declarations.foldlM (declare C.program.arena (expr C.program.arena n)) .top ⟨[], []⟩)
      (C.GivesOpened C.size C.program.declarations.length
        (Context.bind [⟨.global, []⟩] C.program.arena C.program.declarations) ⟨[0], [], []⟩ [0] (1 + decls.flatten.length))
      ⟨0, [], [], firstRegisters C.size, []⟩ := by
  have hmain : C.program.Region [⟨.global, []⟩] ([] ++ C.program.declarations) C.program.body := .main
  have hopen : C.Opened C.size 0 .top [⟨.global, []⟩] ⟨[0], [], []⟩ [0] (firstRegisters C.size) ⟨[], []⟩ :=
    ⟨sound_globals [0], List.suffix_refl _, rfl, rfl, rfl, .top, rfl, fun _ => rfl⟩
  obtain ⟨⟨⟨hpush, -⟩, -⟩, hplaced⟩ := View.embedded_append.1 hp
  intro hset
  refine will_push hpush rfl rfl (allowed_overflow (prints_foldlM (prints_declare (prints_expr n)) _ _)) fun _ => ?_
  exact (follows_declares (simulates W n) hdecls hmain hplaced hopen ht).weaken
    (fun h => h.above (Nat.zero_le _)) hset

/-- **The main part of the code follows the evaluation of the program.** -/
theorem follows_program (hmain : C.Main decls body) (hstage : W.stage (firstStage C.program n)) :
    Follows W.inside C.size (C.Ample n []) (C.program.evaluate n) C.Halts
      ⟨0, [], [], firstRegisters C.size, []⟩ := by
  obtain ⟨hdecls, hbody, hp⟩ := hmain
  have hrun : C.program.evaluate n = (C.program.declarations.foldlM (declare C.program.arena (expr C.program.arena n)) .top >>=
      fun env => expr C.program.arena n env C.program.body) ⟨[], []⟩ := rfl
  rw [hrun]
  by_cases hempty : C.program.declarations = []
  · have hr : C.Ready .top (Context.bind [⟨.global, []⟩] C.program.arena C.program.declarations) ⟨[], [], []⟩ []
        (firstRegisters C.size) ⟨[], []⟩ := by
      rw [hempty]
      exact ⟨sound_globals [], List.suffix_refl _, rfl, rfl, C.size, rfl, .top⟩
    have ht := (told_first hstage [] (by simp [hempty])).declares (by rw [hempty]; rfl) (.refl _)
      (List.suffix_refl _) (by simp [hempty])
    rw [hempty] at hdecls
    cases hdecls
    have hfollows := follows_body (n := n) hbody (by simpa [hempty] using hp) hr ht
    rw [hempty]
    exact hfollows
  · rw [if_neg (by simpa using hempty), List.append_assoc, List.singleton_append] at hp
    have hbody' := (Image.placed_append.1 hp).2
    rw [Nat.zero_add, List.length_cons, Nat.add_comm] at hbody'
    rw [← List.append_assoc] at hp
    have hglobals := (View.embedded_append.1 (W.inside.embedded_front hp.inside)).1
    have ht := told_first hstage [0] (by simp [hempty])
    refine follows_bind (fun env => prints_expr _ _ _) (follows_globals hdecls hglobals ht) ?_
    rintro env w c hrun ⟨σ, s, R, hgrows, -, hs, ho, rfl⟩
    have hnext := ho.next
    have hlast := ht.declares hrun hgrows hs (by rw [List.length_singleton]; omega)
    rw [← ho.fp] at hlast
    exact (follows_body hbody hbody' ho.ready hlast).weaken fun h => h.above (Nat.zero_le _)

end Setting

end Reference

/-! ## Runs -/

namespace Machine

open Reference

/-- The run ends with the answer and has printed the numbers. -/
def Ends (m : Machine) (a : Answer) (out : List Int64) : Prop :=
  ∃ n m', advance n m = (some a, m') ∧ m'.output.toList = out

/-- **The run ends as the evaluation does.** If that did not come to an end with fuel that should suffice, nothing does. -/
def EndsAs (m : Machine) (sufficient : Prop) : EStateM.Result Stop World Value → Prop
  | .ok v w => ∃ word, m.Ends (.ok (some word)) w.output ∧ ∀ x, v = .int x → word = x
  | .error .divisionByZero w => ∃ ip, m.Ends (.error (.divisionByZero ip)) w.output
  | .error .nullReceiver w => ∃ ip, m.Ends (.error (.invalidAddress (-1) ip)) w.output
  | .error .illFormed _ => True
  | .error .outOfFuel _ => ¬sufficient

/-- Memory is too small: the run ends with an overflow of the stack, until when it has printed some of the numbers, or it
comes to a collision. -/
def Exhausts (m : Machine) (out : List Int64) : Prop :=
  (∃ ip printed, m.Ends (.error (.stackOverflow ip)) printed ∧ printed <+: out) ∨ ∃ m', m.Steps m' ∧ m'.Collides

/-- The only fault is that memory is too small. -/
def Overflows (e : MachineError) (_ : List Int64) : Prop := ∃ ip, e = .stackOverflow ip

/-- The run comes, after some steps, to a machine with the property, or memory is too small for it to come there. -/
def Attains (m : Machine) (Q : Nat → Machine → Prop) : Prop :=
  (∃ k m', Q k m') ∨ (∃ ip out, m.Ends (.error (.stackOverflow ip)) out) ∨ ∃ k m', m.After k m' ∧ m'.Collides

/-- The stack does not reach down to the cell right behind the heap. -/
def Roomy (m : Machine) : Prop := m.hp ≠ Int64.ofNat (m.sp - 1)

instance decidableRoomy : DecidablePred Roomy := fun m => inferInstanceAs (Decidable (m.hp ≠ Int64.ofNat (m.sp - 1)))

/-- The run ends with the number after so many instructions, before each of which there is room. -/
def RunsRoomy (m : Machine) (n : Nat) (v : Int64) : Prop :=
  (m.advance n).1.bind Except.toOption = some (some v) ∧ ∀ j < n, (m.advance j).2.Roomy

instance decidableRunsRoomy (m : Machine) (n : Nat) (v : Int64) : Decidable (m.RunsRoomy n v) :=
  inferInstanceAs (Decidable (_ ∧ _))

variable {image : Image} {M : Nat} {m : Machine} {c : Config} {word : Int64}

theorem shows_start (hM : M < Address.bound) :
    Shows image M (start image ⟨M, none⟩) ⟨0, [], [], Setting.firstRegisters M, []⟩ := by
  refine ⟨hM, rfl, rfl, Array.size_replicate, ⟨List.replicate M 0, by simp [start]⟩, rfl, rfl, fun r => ?_, rfl⟩
  cases r <;> rfl

/-- At `halt` the run ends with the topmost value. -/
theorem Shows.ends (h : Shows image M m c) (hhalt : image.get? c.ip = some .halt) (htop : c.stack.head? = some word) :
    m.Ends (.ok (some word)) c.output := by
  have hi : m.image.get? m.ip = some .halt := h.instruction.trans hhalt
  have hvalue : m.value? = some word := by
    rw [value?_eq_top? (by rw [h.size, h.options]), h.top, htop]
  refine ⟨1, { m with steps := m.steps + 1 }, ?_, h.output⟩
  rw [advance, hi, ← hvalue]
  rfl

/-- A run that ends does so before it is given up, or it is given up. -/
theorem Ends.run {a : Answer} {out : List Int64} (h : m.Ends a out) :
    (m.run.1 = a ∧ m.run.2.output.toList = out) ∨ m.run.1 = .error (.stepLimit m.lastStep) := by
  obtain ⟨n, m', hadvance, hout⟩ := h
  unfold Machine.run
  rcases hrun : advance (m.lastStep - m.steps) m with ⟨_ | answer, m''⟩
  · have hoptions := (like_advance (m.lastStep - m.steps) m).options
    rw [hrun] at hoptions
    refine .inr ?_
    dsimp only
    rw [lastStep, hoptions, ← lastStep]
  · refine .inl ?_
    have hfirst := advance_add hadvance (m.lastStep - m.steps)
    have hsecond := advance_add hrun n
    rw [Nat.add_comm, hfirst] at hsecond
    cases hsecond
    exact ⟨rfl, hout⟩

theorem RunsRoomy.advance {n : Nat} (h : m.RunsRoomy n word) :
    m.advance n = (some (.ok (some word)), (m.advance n).2) := by
  obtain ⟨hend, -⟩ := h
  rcases hrun : m.advance n with ⟨_ | e | a, m'⟩ <;> rw [hrun] at hend <;> cases hend
  rfl

/-- Where there is room at every moment, there is no collision. -/
theorem RunsRoomy.not_collides {m' : Machine} {n k : Nat} (h : m.RunsRoomy n word) (hk : m.After k m') : ¬m'.Collides := by
  rintro ⟨_, a, -, -, -, -, -, hhp, hsp, -⟩
  have hlt : k < n := by
    by_contra hge
    obtain ⟨t, rfl⟩ := Nat.exists_eq_add_of_le (Nat.le_of_not_lt hge)
    cases hk.symm.trans (advance_add h.advance t)
  have hroom := h.2 k hlt
  rw [hk] at hroom
  refine hroom (hhp.trans ?_)
  rw [hsp, Nat.add_sub_cancel]

/-- Nor is memory too small. -/
theorem RunsRoomy.not_exhausts {out : List Int64} {n : Nat} (h : m.RunsRoomy n word) : ¬m.Exhausts out := by
  rintro (⟨ip, -, ⟨k, m', hk, -⟩, -⟩ | ⟨m', ⟨k, hk⟩, hc⟩)
  · have hfirst := advance_add hk n
    have hsecond := advance_add h.advance k
    rw [Nat.add_comm, hfirst] at hsecond
    cases hsecond
  · refine h.not_collides (k := k) ?_ hc
    have hzero := hk 0
    rw [Nat.zero_add] at hzero
    exact hzero.trans (after_zero.2 ⟨rfl, _, hc.instruction⟩)

theorem Steps.ends {m' : Machine} {a : Answer} {out : List Int64} (h : m.Steps m') (h' : m'.Ends a out) : m.Ends a out := by
  obtain ⟨n, hn⟩ := h
  obtain ⟨k, m'', hk, hout⟩ := h'
  exact ⟨k + n, m'', (hn k).trans hk, hout⟩

theorem Comes.attains {V : Course} {Q : Nat → Machine → Prop} {E : MachineError → List Int64 → Prop}
    {P : Nat → Machine → Prop} (h : Comes V Q E m) (hE : ∀ e out, E e out → Overflows e out)
    (hQ : ∀ k d m', V.Passes m k d m' → Q d m' → P k m') : m.Attains P := by
  cases h with
  | reach hpasses hq => exact .inl ⟨_, _, hQ _ _ _ hpasses hq⟩
  | fault hpasses _ hadvance he =>
    obtain ⟨ip, rfl⟩ := hE _ _ he
    exact .inr (.inl ⟨ip, _, hpasses.steps.ends ⟨1, _, hadvance, rfl⟩⟩)
  | collide hpasses _ hc =>
    exact .inr (.inr ⟨_, _, Nested.after (fun _ _ => Course.Step.next) hpasses hc.instruction, hc⟩)

/-- Where there is room at every moment, the run comes to what is behind some of its steps. -/
theorem RunsRoomy.attained {Q : Nat → Machine → Prop} {m' : Machine} {n : Nat} (h : m.RunsRoomy n word) (hsteps : m.Steps m')
    (hattains : m'.Attains Q) : ∃ k m'', Q k m'' := by
  rcases hattains with hreached | ⟨ip, out, hends⟩ | ⟨k, m'', hthere, hc⟩
  · exact hreached
  · exact absurd (.inl ⟨ip, out, hsteps.ends hends, List.prefix_refl out⟩) h.not_exhausts
  · obtain ⟨j, hj⟩ := hsteps
    exact absurd hc (h.not_collides ((hj k).trans hthere : m.After (k + j) m''))

end Machine

/-- If the evaluation has given a value, the run arrives behind the part of the code, unless memory is too small. -/
theorem Reference.Follows.attains {α : Type} {V : Course} {M : Nat} {H : Prop} {r : EStateM.Result Stop World α}
    {Q : α → World → Config → Prop} {c : Config} {x : α} {w : World} {m : Machine} (h : Follows V M H r Q c)
    (hrun : r = .ok x w) (hb : V.Begun m) (hm : Machine.Shows V.whole M m c) (hQ : ∀ x w c', Q x w c' → c'.ip = V.stop) :
    m.Attains (m.Arrives V.stop) := by
  subst hrun
  refine (h trivial m hb hm).attains (fun _ _ he => (he.resolve_right id).1) ?_
  rintro k d m' hpasses ⟨rfl, c', hm', hq⟩
  exact ⟨hpasses.mono (fun _ _ => Course.Step.next) fun _ => Nat.ne_of_lt, hm'.ip.trans (hQ x w c' hq)⟩

section Runs

open Reference

variable {p : Program} {names : Names} {code : Code} {M n : Nat}

/-- The generated code, loaded, with the program it comes from. -/
theorem exists_setting (hfaultless : Binder.Faultless p names)
    (hcode : p.generate (p.bind names) (Int64.ofNat M) = .ok code) (hM : M < Address.bound)
    (hlength : code.length ≤ Address.bound) :
    ∃ C : Setting, ∃ decls body, C.program = p ∧ C.names = names ∧ C.size = M ∧ Image.load code = .ok C.image ∧
      C.Main decls body := by
  obtain ⟨image, hload, himage, hlabels⟩ := Image.load_ok (closed_of_generate hcode)
  obtain ⟨units, decls, body, hshape, hdecls, hbody⟩ := Generator.generate_shape hfaultless hcode
  have hlist : image.code.toList = code := by rw [himage]
  have hlinked : image.Linked := by
    refine ⟨?_, fun {i l} hi => hlabels i l ?_⟩
    · rw [Image.size, himage, List.size_toArray]
      exact hlength
    · rwa [Image.get?, himage, List.getElem?_toArray] at hi
  have hplaced : ∀ unit ∈ units, ∃ ip, image.Placed ip unit := by
    intro unit hunit
    obtain ⟨front, back, rfl⟩ := List.append_of_mem hunit
    have hall := hlist.trans hshape
    rw [List.flatten_append, List.flatten_cons, ← List.append_assoc, ← List.append_assoc] at hall
    exact ⟨_, Image.placed_of_eq hall⟩
  refine ⟨⟨p, names, image, M, units, hfaultless, hlinked, hM, hplaced⟩, decls, body, rfl, rfl, rfl, hload, hdecls, hbody, ?_⟩
  show image.Placed ([] : Code).length _
  exact Image.placed_of_eq (hlist.trans hshape)

/-- The fuel that suffices for a program. -/
theorem Reference.Setting.ample (C : Setting) (h : (C.size + 1) * (C.program.arena.nodes.size + 1) ≤ n) : C.Ample n [] := by
  rw [Nat.add_mul, Nat.one_mul] at h
  simp only [Setting.Ample, List.length_nil, Nat.sub_zero]
  omega

/-- What the machine does from its start, in the words of runs. -/
theorem Machine.ends_or_exhausts {m : Machine} {C : Setting} {W : C.Watch} {r : EStateM.Result Stop World Value}
    {sufficient : Prop} (hsufficient : sufficient → C.Ample n [])
    (hfollows : Settled (C.Ample n []) r →
      Comes W.inside (W.inside.Back M (Post C.Halts r)) (Allowed r) m) :
    m.EndsAs sufficient r ∨ m.Exhausts (world r).output := by
  by_cases hset : Settled (C.Ample n []) r
  · cases hfollows hset with
    | reach hsteps hq =>
      obtain ⟨-, c, hshows, hq⟩ := hq
      cases r with
      | ok v w =>
        obtain ⟨word, hword, htop, hout, hhalt⟩ := hq
        exact .inl ⟨word, hout ▸ hsteps.steps.ends (hshows.ends hhalt htop), hword⟩
      | error e w => exact hq.elim
    | fault hsteps _ hadvance he =>
      have hends := hsteps.steps.ends ⟨1, _, hadvance, rfl⟩
      rcases he with ⟨⟨ip, rfl⟩, hout⟩ | he
      · exact .inr (.inl ⟨ip, _, hends, hout⟩)
      · refine .inl ?_
        cases r with
        | ok v w => exact he.elim
        | error e w =>
          cases e with
          | divisionByZero =>
            obtain ⟨⟨ip, rfl⟩, hout⟩ := he
            exact ⟨ip, hout ▸ hends⟩
          | nullReceiver =>
            obtain ⟨⟨ip, rfl⟩, hout⟩ := he
            exact ⟨ip, hout ▸ hends⟩
          | illFormed => exact he.elim
          | outOfFuel => exact he.elim
    | collide hsteps _ hc => exact .inr (.inr ⟨_, hsteps.steps, hc⟩)
  · refine .inl ?_
    cases r with
    | ok v w => exact absurd trivial hset
    | error e w =>
      cases e with
      | divisionByZero => exact absurd trivial hset
      | nullReceiver => exact absurd trivial hset
      | illFormed => trivial
      | outOfFuel => exact fun h => hset (hsufficient h)

/-- **The run of generated code ends as the program evaluates, unless memory is too small.** -/
theorem run_of_generate {text : String} {names' : Names} (hparse : Program.parse text names = (.ok p, names'))
    (hbind : (p.bind names').errors = []) (hcode : p.generate (p.bind names') (Int64.ofNat M) = .ok code)
    (hM : M < 2 ^ 63) (hlength : code.length ≤ 2 ^ 63) (n : Nat) :
    ∃ image, Image.load code = .ok image ∧
      ((Machine.start image ⟨M, none⟩).EndsAs ((M + 1) * (p.arena.nodes.size + 1) ≤ n) (p.evaluate n) ∨
        (Machine.start image ⟨M, none⟩).Exhausts (world (p.evaluate n)).output) := by
  obtain ⟨C, decls, body, rfl, rfl, rfl, hload, hmain⟩ :=
    exists_setting ⟨placed_of_parse hparse, hbind⟩ hcode hM hlength
  refine ⟨C.image, hload, ?_⟩
  exact Machine.ends_or_exhausts (W := .every C (.start C.image ⟨C.size, none⟩)) C.ample fun hset =>
    Setting.follows_program hmain trivial hset _ .refl (Machine.shows_start hM)

/-- The program in which a function with arguments that it does not use makes an object. -/
def makerCall : Program where
  arena :=
    ⟨#[⟨.name ⟨1⟩, some ⟨1, 36, 35⟩⟩, ⟨.name ⟨4⟩, some ⟨1, 75, 74⟩⟩, ⟨.new ⟨0⟩ [⟨1⟩], some ⟨1, 73, 72⟩⟩,
        ⟨.int 35, some ⟨1, 92, 91⟩⟩, ⟨.int 8, some ⟨1, 95, 94⟩⟩, ⟨.int 9, some ⟨1, 97, 96⟩⟩,
        ⟨.call ⟨3⟩ [⟨3⟩, ⟨4⟩, ⟨5⟩], some ⟨1, 89, 88⟩⟩, ⟨.methodCall ⟨7⟩ ⟨2⟩ [], some ⟨1, 104, 103⟩⟩],
      #[.classDecl ⟨⟨0⟩, [⟨⟨1⟩, .int, some ⟨1, 13, 12⟩⟩], [⟨⟨2⟩, .int, [], [], ⟨0⟩, some ⟨1, 22, 21⟩⟩], some ⟨1, 5, 4⟩⟩,
        .funDecl ⟨⟨3⟩, .object ⟨0⟩, [⟨⟨4⟩, .int, some ⟨1, 50, 49⟩⟩, ⟨⟨5⟩, .int, some ⟨1, 56, 55⟩⟩,
          ⟨⟨6⟩, .int, some ⟨1, 62, 61⟩⟩], [], ⟨2⟩, some ⟨1, 41, 40⟩⟩,
        .varDecl ⟨⟨7⟩, .object ⟨0⟩, ⟨6⟩, some ⟨1, 79, 78⟩⟩]⟩
  declarations := [⟨0⟩, ⟨1⟩, ⟨2⟩]
  body := ⟨7⟩

def makerNames : Names := ⟨#["C", "v", "get", "mk", "a", "b", "c", "x"]⟩

theorem parse_makerCall :
    Program.parse ("let class C(v:int) { fun get:int() v; } fun mk:C(a:int,b:int,c:int) new C(a); " ++
      "var x:C = mk(35,8,9); in x.get();") .empty = (.ok makerCall, makerNames) := by
  decide +kernel

theorem bind_makerCall : (makerCall.bind makerNames).errors = [] := by decide +kernel

/-- A result that passes a check. -/
theorem exists_of_any {ε α : Type} {r : Except ε α} {P : α → Prop} [DecidablePred P]
    (h : (r.toOption.any fun x => P x) = true) : ∃ x, r = .ok x ∧ P x := by
  cases r with
  | error e => cases h
  | ok x => exact ⟨x, rfl, of_decide_eq_true h⟩

/-- In a memory of 100 cells there is room for it. -/
theorem generate_makerCall : ∃ code image, makerCall.generate (makerCall.bind makerNames) (Int64.ofNat 100) = .ok code ∧
    code.length ≤ 2 ^ 63 ∧ Image.load code = .ok image ∧ (Machine.start image ⟨100, none⟩).RunsRoomy 83 35 := by
  have hchecks : ((makerCall.generate (makerCall.bind makerNames) (Int64.ofNat 100)).toOption.any fun code =>
      code.length ≤ 2 ^ 63 ∧ ((Image.load code).toOption.any fun image =>
        (Machine.start image ⟨100, none⟩).RunsRoomy 83 35) = true) = true := by decide +kernel
  obtain ⟨code, hcode, hlength, hrun⟩ := exists_of_any hchecks
  obtain ⟨image, hload, hroomy⟩ := exists_of_any hrun
  exact ⟨code, image, hcode, hlength, hload, hroomy⟩

/-- The program gives 35. -/
theorem run_of_generate_makerCall : ∃ code image,
    makerCall.generate (makerCall.bind makerNames) (Int64.ofNat 100) = .ok code ∧ Image.load code = .ok image ∧
      (Machine.start image ⟨100, none⟩).Ends (.ok (some 35)) [] := by
  obtain ⟨code, image, hcode, hlength, hload, hroomy⟩ := generate_makerCall
  obtain ⟨image', hload', hrun⟩ := run_of_generate parse_makerCall bind_makerCall hcode (by decide) hlength 4
  obtain rfl := Except.ok.inj (hload.symm.trans hload')
  obtain ⟨word, hends, hword⟩ := hrun.resolve_right hroomy.not_exhausts
  exact ⟨code, image, hcode, hload, hword 35 rfl ▸ hends⟩

/-- In a memory of 14 cells the table of the object is overwritten. One more cell suffices. -/
example : [14, 15].map (fun size => (makerCall.generate (makerCall.bind makerNames) (Int64.ofNat size)).toOption.bind
    fun code => (execute code ⟨size, none⟩).toOption.bind Machine.value?) = [some 2, some 35] := by decide +kernel

end Runs

end Fool
