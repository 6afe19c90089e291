import Fool.Proofs.Binding.Known

/-!
# Binding reports every fault once

Binding a declaration reports the faults of the declaration and of what is inside it (`tells_decl`). So the errors of
binding a program are its faults, one for each spot that has one (`bind_reports`).
-/

namespace Fool

namespace Binder

open Arena

variable {p : Program} {names : Names} {Γ Γ' : Context} {k n : Nat} {s q t : Pos} {ds ds' : List DeclRef} {d : DeclRef}
  {body : ExprRef} {done : List DeclRef} {cls : Option Symbol}

/-! ## Expressions and regions -/

variable (names) in
theorem tells_whole (hpost : p.arena.Postordered) (hk : k ≤ maxNesting) (hf : Fits p Γ) {w : ExprRef}
    (hfill : p.arena.Fill k s [w] t) :
    Tells (Stands p Γ) (whole p.arena names w) (Stands p Γ) (p.whole names Γ w) := by
  obtain ⟨⟨-, hlt, -⟩, -, hn⟩ := hfill
  refine (tells_visitAll names hf (hpost.walk_nodup hlt)).congr (fun b _ => ?_) fun sp e => ?_
  · rw [whole, expr_eq_walk hpost ((hn w List.mem_cons_self).mono hk)]
  · constructor
    · rintro ⟨r, hr, h⟩
      obtain ⟨before, after, heq⟩ := List.append_of_mem hr
      exact ⟨before, r, after, heq, h⟩
    · rintro ⟨before, r, after, heq, h⟩
      exact ⟨r, heq ▸ List.mem_append_right _ List.mem_cons_self, h⟩

/-- Binding a declaration at its place reports the faults of it and of what is inside. -/
def TellsDecls (p : Program) (names : Names) (k n : Nat) : Prop :=
  ∀ {Γ : Context} {ds ds' : List DeclRef} {d : DeclRef} {body : ExprRef} {s t : Pos}, p.Region Γ (ds ++ d :: ds') body →
    p.arena.DeclAt k n s d t → Tells (Stands p (Γ.bind p.arena ds)) (decl p.arena names n d)
      (Stands p (Γ.bind p.arena (ds ++ [d]))) (p.ofDecl names (Γ.bind p.arena ds) d)

/-- A spot lies between the ends of one thing in a row only. -/
theorem within_marks {mark : Nat → Pos} (hmono : ∀ i j, i ≤ j → (mark i).Before (mark j)) {sp : Spot} {i j : Nat}
    (hi : sp.Within (mark i) (mark (i + 1))) (hj : sp.Within (mark j) (mark (j + 1))) : i = j := by
  rcases lt_trichotomy i j with h | h | h
  · exact absurd hj (hi.not_behind (hmono _ _ h))
  · exact h
  · exact absurd hi (hj.not_behind (hmono _ _ h))

theorem tells_region (hp : p.Placed) (hk : k ≤ maxNesting) (h : TellsDecls p names k n) (hr : p.Region Γ ds body)
    (hrow : Row (p.arena.DeclAt k n) s ds q) (hfill : p.arena.Fill k q [body] t) :
    Tells (Stands p Γ) (region p.arena names n ds body) (Stands p (Γ.bind p.arena ds)) (p.Inside names Γ ds body) := by
  obtain ⟨mark, hmark, hmono, hfirst, hlast⟩ := hrow.marks fun hd => hd.before
  have hat : ∀ before d after, ds = before ++ d :: after →
      p.arena.DeclAt k n (mark before.length) d (mark (before.length + 1)) :=
    fun before d after hds => hmark _ _ (by simp [hds])
  have hdecls : Tells (Stands p (Γ.bind p.arena [])) (ds.forM _) (Stands p (Γ.bind p.arena ds)) _ :=
    tells_forM (Q := fun before => Stands p (Γ.bind p.arena before))
      (G := fun before d => p.ofDecl names (Γ.bind p.arena before) d)
      (fun before d after hds => h (hds ▸ hr) (hat before d after hds))
      fun before d after before' d' after' sp e e' hds hds' hF hF' => within_marks hmono
        (Program.ofDecl_within hp.postordered (hat before d after hds) hF)
        (Program.ofDecl_within hp.postordered (hat before' d' after' hds') hF')
  rw [Context.bind_nil] at hdecls
  have hbody := tells_whole names hp.postordered hk (fits_of_region hp hr (List.append_nil ds).symm) hfill
  refine (hdecls.seq hbody ?_).congr (fun b _ => rfl) fun sp e => Program.inside_iff
  rintro sp e e' ⟨before, d, after, hds, hF⟩ hF'
  have hw := Program.ofDecl_within hp.postordered (hat before d after hds) hF
  have hend : (mark (before.length + 1)).Before q := hlast ▸ hmono _ _ (by simp [hds])
  exact hw.not_behind hend (Program.whole_within hp.postordered hfill hF')

/-! ## Functions -/

/-- Where the spots of the head of a function are: its own name, or a parameter of it. -/
theorem of_head {x : Named} {param : Nat → Named} {f : Function} {kind : EntryKind} {sp : Spot} {e : BindError}
    (h : Faults.head names x param Γ f kind sp e) : sp = .name x ∨ ∃ i, sp = .name (param i) := by
  rcases h with ⟨-, rfl, -⟩ | ⟨before, _, _, -, -, rfl, -⟩
  · exact .inl rfl
  · exact .inr ⟨_, rfl⟩

theorem of_owner {x : Named} {param : Nat → Named} {f : Function} {kind : EntryKind} {sp : Spot} {e : BindError}
    (howner : x.owner = d ∧ ∀ i, (param i).owner = d) (h : Faults.head names x param Γ f kind sp e) : sp.Of d := by
  rcases of_head h with rfl | ⟨i, rfl⟩
  · exact ⟨x, howner.1, .inl rfl⟩
  · exact ⟨param i, howner.2 i, .inl rfl⟩

/-- Inside a function the global declarations that have been read and the class that is being read stay the same. -/
theorem stands_bind (hdepth : Γ.depth ≠ 0) (hdone : p.passed Γ = done) (hcls : Γ.class? = cls) (ds : List DeclRef) :
    Stands p (Γ.bind p.arena ds) = Exact p.arena (Γ.bind p.arena ds) done cls := by
  rw [Stands, Context.bind, passed_declareAll hdepth, Context.class?_declareAll, hdone, hcls]

theorem depth_inside (f : Function) (kind : EntryKind) (hne : Γ ≠ []) :
    Context.depth (f.block :: Γ.declareAll [f.declared kind]) ≠ 0 := by
  simpa [Context.depth] using hne

/-- A function is entered, bound and left; its region stands before the declaration that it belongs to. -/
theorem tells_function (hp : p.Placed) (hk : k ≤ maxNesting) (h : TellsDecls p names k n) (hne : Γ ≠ []) (x : Named)
    (param : Nat → Named) {f : Function} {kind : EntryKind} (hparam : Function.Injective param) (hx : ∀ i, param i ≠ x)
    (howner : x.owner = d ∧ ∀ i, (param i).owner = d) (hΓ' : Γ' = f.block :: Γ.declareAll [f.declared kind])
    (hr : p.Region Γ' f.locals f.body) (hat : p.arena.FunctionAt k (p.arena.DeclAt k n) s f t) (ht : t.decls ≤ d.index)
    (hdone : p.passed Γ' = done) (hcls : Γ'.class? = cls) :
    Tells (Exact p.arena Γ done cls) (do enterFunction names f kind; region p.arena names n f.locals f.body; leave)
      (Exact p.arena (Γ.declareAll [f.declared kind]) done cls)
      fun sp e => Faults.head names x param Γ f kind sp e ∨ p.Inside names Γ' f.locals f.body sp e := by
  obtain ⟨q, hrow, hfill⟩ := hat
  have henter : Tells (Exact p.arena Γ done cls) _ _ _ := tells_enterFunction names hne hparam hx f kind
  have hin := tells_region hp hk h hr hrow hfill
  subst hΓ'
  rw [stands_bind (depth_inside f kind hne) hdone hcls, Stands, hdone, hcls] at hin
  refine henter.seq (hin.before (tells_leave _)) ?_
  rintro sp e e' hF hF'
  exact (of_owner howner hF).not_within ht (hF'.within hp.postordered hrow hfill)

/-! ## Declarations -/

/-- One more declaration gives its name a class if it declares one and no other has the name. -/
theorem firstClass_concat {a : Arena} {name : Symbol} {c : Class} : a.FirstClass (ds ++ [d]) name c ↔
    a.FirstClass ds name c ∨ (∀ d' ∈ ds, ∀ x, a.decl? d' = some x → x.name ≠ name) ∧
      a.decl? d = some (.classDecl c) ∧ c.name = name := exists_split_concat

/-- At the outermost level the declarations are those of the program, and all of them are there. -/
theorem region_outermost (hp : p.Placed) (hr : p.Region Γ (ds ++ d :: ds') body) (hdepth : Γ.depth = 0) :
    Γ = [⟨.global, []⟩] ∧ p.passed (Γ.bind p.arena ds) = ds ∧ p.passed (Γ.bind p.arena (ds ++ [d])) = ds ++ [d] := by
  obtain ⟨rfl, hds, -⟩ := hr.eq_main hdepth
  obtain ⟨q, hrow, -⟩ := hp.row
  have hsome : ∀ d' ∈ p.declarations, (p.arena.decl? d').isSome := fun d' hd' => by
    obtain ⟨_, _, hat⟩ := hrow.imp_mem hd'
    obtain ⟨x, hx⟩ := hat.exists_decl?
    rw [hx]
    rfl
  have hds' : p.declarations = (ds ++ [d]) ++ ds' := by simp [← hds]
  exact ⟨rfl, passed_main hds.symm fun d' hd' => hsome d' (hds ▸ List.mem_append_left _ hd'),
    passed_main hds' fun d' hd' => hsome d' (hds' ▸ List.mem_append_left _ hd')⟩

/-- Behind a declaration that is no class at the outermost level the classes are those before it. -/
theorem stands_behind (hp : p.Placed) (hr : p.Region Γ (ds ++ d :: ds') body)
    (hnot : Γ.depth = 0 → ∀ c, p.arena.decl? d ≠ some (.classDecl c)) {b : Binder}
    (hb : Exact p.arena (Γ.bind p.arena (ds ++ [d])) (p.passed (Γ.bind p.arena ds)) (Γ.bind p.arena ds).class? b) :
    Stands p (Γ.bind p.arena (ds ++ [d])) b := by
  refine ⟨hb.scopes, ?_, fun name info => ?_⟩
  · rw [hb.current, Context.bind, Context.bind, Context.class?_declareAll, Context.class?_declareAll]
  · rw [hb.classes]
    by_cases hdepth : Γ.depth = 0
    · obtain ⟨-, hbefore, hbehind⟩ := region_outermost hp hr hdepth
      rw [hbefore, hbehind]
      have hsame : ∀ c, p.arena.FirstClass (ds ++ [d]) name c ↔ p.arena.FirstClass ds name c := fun c =>
        firstClass_concat.trans (or_iff_left fun h => hnot hdepth c h.2.1)
      simp only [hsame]
    · rw [Context.bind, Context.bind, passed_declareAll hdepth, passed_declareAll hdepth]

variable (names) in
/-- Declaring a variable reports the unknown classes of its type, and its name if that is taken. -/
theorem tells_declareVar (hf : Fits p Γ) {v : Variable} (hx : p.arena.decl? d = some (.varDecl v)) :
    Tells (Stands p Γ) (declareVar names v) (Exact p.arena (Γ.declareAll [⟨v.name, .var, v.ty.checked⟩]) (p.passed Γ) Γ.class?)
      (p.arena.Misdeclared names Γ d) := by
  have htype : Tells (Stands p Γ) _ _ _ :=
    tells_checkType names (.decl d) v.location v.ty fun b hb c => Stands.knowsClass hb hf
  have hname : Tells (Stands p Γ) _ _ _ :=
    tells_declare names hf.rooted.ne_nil (.decl d) ⟨v.name, .var, v.ty.checked⟩ v.location
  refine (htype.seq hname ?_).congr (fun b _ => ?_) fun sp e => misdeclared_var hx
  · rintro sp e e' ⟨i, c, -, -, rfl, -⟩ ⟨-, heq, -⟩
    cases heq
  · simp only [declareVar, bind_run, checkType_run, pure_run]

theorem tells_varDecl (hp : p.Placed) (hk : k ≤ maxNesting) (hr : p.Region Γ (ds ++ d :: ds') body)
    (hd : p.arena.DeclAt k (n + 1) s d t) {v : Variable} (hx : p.arena.decl? d = some (.varDecl v)) :
    Tells (Stands p (Γ.bind p.arena ds)) (decl p.arena names (n + 1) d) (Stands p (Γ.bind p.arena (ds ++ [d])))
      (p.ofDecl names (Γ.bind p.arena ds) d) := by
  have hf := fits_of_region hp hr rfl
  have hinit := tells_whole names hp.postordered hk hf (hd.var hx)
  have hall := hinit.seq (tells_declareVar names hf hx) ?_
  · refine (hall.congr (fun b _ => by rw [decl_var hx]) fun sp e => ?_).imp fun b hb => ?_
    · rw [Program.ofDecl_var hx, misdeclared_var hx]
    · refine stands_behind hp hr (fun _ c hc => by cases hx.symm.trans hc) ?_
      rwa [Context.bind_append, bind_singleton (Arena.declares_var hx _)]
  · rintro sp e e' ⟨r, -, _, _, -, -, rfl, -⟩ h
    rcases (misdeclared_var hx).1 h with ⟨i, c, -, -, heq, -⟩ | ⟨-, heq, -⟩ <;> cases heq

theorem tells_funDecl (hp : p.Placed) (hk : k ≤ maxNesting) (h : TellsDecls p names k n)
    (hr : p.Region Γ (ds ++ d :: ds') body) (hd : p.arena.DeclAt k (n + 1) s d t) {f : Function}
    (hx : p.arena.decl? d = some (.funDecl f)) :
    Tells (Stands p (Γ.bind p.arena ds)) (decl p.arena names (n + 1) d) (Stands p (Γ.bind p.arena (ds ++ [d])))
      (p.ofDecl names (Γ.bind p.arena ds) d) := by
  have hf := fits_of_region hp hr rfl
  have htype : Tells (Stands p (Γ.bind p.arena ds)) _ _ _ :=
    tells_checkType names (.decl d) f.location f.arrowType fun b hb c => Stands.knowsClass hb hf
  have hfun : Tells (Stands p (Γ.bind p.arena ds)) _ _ _ := tells_function hp hk h hf.rooted.ne_nil (.decl d)
    (.param d none) (fun i j hij => by cases hij; rfl) (fun i => Named.noConfusion) ⟨rfl, fun _ => rfl⟩ rfl
    (Program.Region.function hr hx) (hd.function hx) (Nat.le_refl _) (passed_enter _ hf.rooted.ne_nil _) ?_
  · refine ((htype.seq hfun ?_).congr (fun b _ => ?_) fun sp e => Program.ofDecl_fun hx).imp fun b hb => ?_
    · rintro sp e e' ⟨i, c, -, -, rfl, -⟩ (hhead | hin)
      · rcases of_head hhead with heq | ⟨j, heq⟩ <;> cases heq
      · obtain ⟨q, hrow, hfill⟩ := hd.function hx
        exact Spot.Of.not_within ⟨.decl d, rfl, .inr ⟨i, rfl⟩⟩ (Nat.le_refl _) (hin.within hp.postordered hrow hfill)
    · rw [decl_function hx]
      simp only [enterFunDecl, bind_run, checkType_run, pure_run]
    · refine stands_behind hp hr (fun _ c hc => by cases hx.symm.trans hc) ?_
      rwa [Context.bind_append, bind_singleton (Arena.declares_fun hx _)]
  · simp only [Context.class?, List.map_cons, Context.map_kind_declareAll]
    rfl

/-! ## Classes -/

/-- Looking something up for each element of a list. -/
theorem mapM_run {α β : Type} (f : α → BindM β) (xs : List α) (b : Binder) :
    (xs.mapM f b).2 = (xs.forM (fun x => do let _ ← f x) b).2 := by
  induction xs generalizing b with
  | nil => rfl
  | cons x xs ih =>
    simp only [List.mapM_cons, bind_run, pure_run]
    exact ih _

/-- The shape of a class is that of its fields and then that of its methods. -/
theorem classShape_run (c : Class) (b : Binder) : ((do let _ ← classShape names c) b).2 = ((do
    c.fields.forM fun m => do let _ ← checkType names m.location m.ty
    c.methods.forM fun m => do let _ ← checkType names m.location m.arrowType : BindM Unit) b).2 := by
  simp only [classShape, bind_run, pure_run, mapM_run]

variable (names) in
theorem tells_classShape {c : Class}
    (hk : ∀ b, Exact p.arena Γ done (some c.name) b → ∀ name,
      b.knowsClass name = true ↔ Context.KnowsClass (⟨.cls c.name, []⟩ :: Γ) name) (d : DeclRef) :
    Tells (Exact p.arena Γ done (some c.name)) (do let _ ← classShape names c) (Exact p.arena Γ done (some c.name))
      (Faults.shape names d Γ c) := by
  have hfields : Tells (Exact p.arena Γ done (some c.name)) (c.fields.forM _) _ _ :=
    tells_forM (Q := fun _ => Exact p.arena Γ done (some c.name))
      (fun before x after _ => tells_checkType names (.field d before.length) x.location x.ty hk) ?_
  have hmethods : Tells (Exact p.arena Γ done (some c.name)) (c.methods.forM _) _ _ :=
    tells_forM (Q := fun _ => Exact p.arena Γ done (some c.name))
      (fun before m after _ => tells_checkType names (.method d before.length) m.location m.arrowType hk) ?_
  · refine (hfields.seq hmethods ?_).congr (fun b _ => classShape_run c b) fun sp e => Iff.rfl
    rintro sp e e' ⟨_, _, _, -, i, n, -, -, rfl, -⟩ ⟨_, _, _, -, j, m, -, -, heq, -⟩
    cases heq
  · rintro before m after before' m' after' sp e e' - - ⟨i, n, -, -, rfl, -⟩ ⟨j, n', -, -, heq, -⟩
    injection heq with heq
    injection heq
  · rintro before x after before' x' after' sp e e' - - ⟨i, n, -, -, rfl, -⟩ ⟨j, n', -, -, heq, -⟩
    injection heq with heq
    injection heq

variable (names) in
/-- A class begins with its shape. -/
def beginClass (c : Class) : BindM Unit := do
  modify fun b => { b with currentClass := some c.name }
  let _ ← classShape names c

variable (names) in
/-- A class is declared, its scope opened, and its fields declared. -/
def openClass (c : Class) : BindM Unit := do
  let _ ← declare names c.name c.shape.type .cls c.location
  modify fun b => { b with scopes := b.scopes.push (.empty (.cls c.name)) }
  declareAll names .field c.fields (c.fields.map fun x => x.ty.checked)

theorem enterClass_eq (c : Class) : enterClass names c = (do beginClass names c; openClass names c) := rfl

variable (names) in
/-- Beginning a class reports the unknown classes of its members. -/
theorem tells_beginClass {c : Class}
    (hk : ∀ b, Exact p.arena Γ done (some c.name) b → ∀ name,
      b.knowsClass name = true ↔ Context.KnowsClass (⟨.cls c.name, []⟩ :: Γ) name) (d : DeclRef) :
    Tells (Exact p.arena Γ done none) (beginClass names c) (Exact p.arena Γ done (some c.name))
      (Faults.shape names d Γ c) := by
  have hcurrent : Tells (Exact p.arena Γ done none) (modify fun b => { b with currentClass := some c.name })
      (Exact p.arena Γ done (some c.name)) fun _ _ => False :=
    tells_quiet fun b hb => ⟨⟨hb.scopes, rfl, hb.classes⟩, rfl⟩
  exact (tells_classShape names hk d).after hcurrent

variable (names) in
/-- Opening a class reports its name and its fields, if they are taken. -/
theorem tells_openClass (hne : Γ ≠ []) (c : Class) (d : DeclRef) :
    Tells (Exact p.arena Γ done (some c.name)) (openClass names c)
      (Exact p.arena (c.block [] :: Γ.declareAll [c.declared]) done (some c.name)) (Faults.members names d Γ c) := by
  have hname : Tells (Exact p.arena Γ done (some c.name)) _ _ _ :=
    tells_declare names hne (.decl d) c.declared c.location
  have hfields : Tells (Exact p.arena (⟨.cls c.name, []⟩ :: Γ.declareAll [c.declared]) done (some c.name)) _ _ _ :=
    tells_members names (List.cons_ne_nil _ _) .field c.fields (x := .field d) fun i j hij => by cases hij; rfl
  rw [Class.block_nil]
  refine (hname.seq (hfields.after (tells_push (.cls c.name))) ?_).congr (fun b _ => rfl) fun sp e => Iff.rfl
  rintro sp e e' ⟨-, rfl, -⟩ ⟨_, _, _, -, -, heq, -⟩
  cases heq

/-- A class is left, and kept if its name was free. -/
theorem tells_leaveClass {c : Class} (hx : p.arena.decl? d = some (.classDecl c)) {declared : Bool}
    (hlen : Γ.length = 1)
    (hdeclared : declared = true ↔ ∀ d' ∈ done, ∀ x, p.arena.decl? d' = some x → x.name ≠ c.name) :
    Tells (Exact p.arena (c.block c.methods :: Γ) done (some c.name)) (leaveClass c declared)
      (Exact p.arena Γ (done ++ [d]) none) fun _ _ => False := by
  refine tells_quiet fun b hb => ?_
  have hscope : b.scopes.current? = some ((c.block c.methods).scope 1) := by
    rw [hb.scopes, ← hlen]
    rfl
  have hpop : b.scopes.pop = Γ.scopes := by rw [hb.scopes, Context.pop_scopes]
  simp only [leaveClass, bind_run, get_run, modify_run, hscope]
  cases declared with
  | false =>
    refine ⟨⟨hpop, rfl, fun name info => ?_⟩, rfl⟩
    have hsame : ∀ c', p.arena.FirstClass (done ++ [d]) name c' ↔ p.arena.FirstClass done name c' := by
      refine fun c' => firstClass_concat.trans (or_iff_left ?_)
      rintro ⟨hfree, hx', rfl⟩
      cases hx.symm.trans hx'
      exact absurd (hdeclared.2 hfree) Bool.false_ne_true
    simp only [hsame]
    exact hb.classes name info
  | true =>
    refine ⟨⟨hpop, rfl, fun name info => ?_⟩, rfl⟩
    have hget := ClassTable.get?_insertNew b.classes c.name name ⟨c.shape, (c.block c.methods).scope 1⟩
    have hfree := hdeclared.1 rfl
    show (b.classes.insertNew c.name ⟨c.shape, (c.block c.methods).scope 1⟩).get? name = some info ↔ _
    rw [hget, Option.or_eq_some_iff, hb.classes]
    simp only [firstClass_concat]
    constructor
    · rintro (⟨c', hfirst, rfl⟩ | ⟨-, hnew⟩)
      · exact ⟨c', .inl hfirst, rfl⟩
      · split at hnew
        · cases hnew
          exact ⟨c, .inr ⟨‹c.name = name› ▸ hfree, hx, ‹_›⟩, rfl⟩
        · cases hnew
    · rintro ⟨c', hfirst | ⟨-, hx', rfl⟩, rfl⟩
      · exact .inl ⟨c', hfirst, rfl⟩
      · cases hx.symm.trans hx'
        refine .inr ⟨?_, if_pos rfl⟩
        rw [Option.eq_none_iff_forall_ne_some]
        intro info hinfo
        obtain ⟨c', ⟨before, d', after, hds, -, hx', hname⟩, -⟩ := (hb.classes _ _).1 hinfo
        exact hfree d' (hds ▸ List.mem_append_right _ List.mem_cons_self) _ hx' hname

variable (names) in
/-- Binding the methods of a class reports the faults of each. -/
theorem tells_methods (hp : p.Placed) (hk : k ≤ maxNesting) (h : TellsDecls p names k n) {c : Class}
    (hr : ∀ ms m ms', c.methods = ms ++ m :: ms' → p.Region (m.block :: c.block (ms ++ [m]) :: Γ) m.locals m.body)
    (hrow : Row (p.arena.FunctionAt k (p.arena.DeclAt k n)) s c.methods t) (ht : t.decls ≤ d.index)
    (hdone : ∀ ms m, p.passed (Function.block m :: c.block ms :: Γ) = done)
    (hcls : ∀ ms m, Context.class? (Function.block m :: c.block ms :: Γ) = some c.name) :
    Tells (Exact p.arena (c.block [] :: Γ) done (some c.name)) (methods p.arena names n c.methods)
      (Exact p.arena (c.block c.methods :: Γ) done (some c.name))
      (Faults.eachOf c.methods fun ms m sp e =>
        Faults.head names (.method d ms.length) (.param d (some ms.length)) (c.block ms :: Γ) m .method sp e ∨
        p.Inside names (m.block :: c.block (ms ++ [m]) :: Γ) m.locals m.body sp e) := by
  obtain ⟨mark, hmark, hmono, hfirst, hlast⟩ := hrow.marks fun hf => hf.before
  have hat : ∀ ms m ms', c.methods = ms ++ m :: ms' →
      p.arena.FunctionAt k (p.arena.DeclAt k n) (mark ms.length) m (mark (ms.length + 1)) :=
    fun ms m ms' hms => hmark _ _ (by simp [hms])
  have hle : ∀ ms m ms', c.methods = ms ++ m :: ms' → (mark (ms.length + 1)).decls ≤ d.index := fun ms m ms' hms =>
    Nat.le_trans (hlast ▸ (hmono (ms.length + 1) c.methods.length (by simp [hms])).2) ht
  refine tells_forM (Q := fun ms => Exact p.arena (c.block ms :: Γ) done (some c.name)) (fun ms m ms' hms => ?_) ?_
  · have hbehind : Context.declareAll (c.block ms :: Γ) [m.declared .method] = c.block (ms ++ [m]) :: Γ := by
      rw [Class.block_append]
      rfl
    have hone := tells_function hp hk h (List.cons_ne_nil (c.block ms) Γ) (.method d ms.length)
      (.param d (some ms.length)) (fun i j hij => by cases hij; rfl) (fun i => Named.noConfusion) ⟨rfl, fun _ => rfl⟩
      (by rw [hbehind]) (hr ms m ms' hms) (hat ms m ms' hms) (hle ms m ms' hms) (hdone _ m) (hcls _ m)
    rw [hbehind] at hone
    exact hone.congr (fun b _ => function_run p.arena m .method b) fun sp e => Iff.rfl
  · rintro ms m ms' ms₁ m₁ ms₁' sp e e' hms hms₁ hF hF'
    have hwithin {Γ' : Context} {ms ms' : List Function} {m : Function} {e : BindError} (hms : c.methods = ms ++ m :: ms')
        (hin : p.Inside names Γ' m.locals m.body sp e) : sp.Within (mark ms.length) (mark (ms.length + 1)) := by
      obtain ⟨q, hrow, hfill⟩ := hat ms m ms' hms
      exact hin.within hp.postordered hrow hfill
    have howner (i : Nat) : (Named.method d i).owner = d ∧ ∀ j, (Named.param d (some i) j).owner = d := ⟨rfl, fun _ => rfl⟩
    rcases hF with hF | hF <;> rcases hF' with hF' | hF'
    · rcases of_head hF with rfl | ⟨i, rfl⟩ <;> rcases of_head hF' with heq | ⟨j, heq⟩ <;>
        simp only [Spot.name.injEq, Named.method.injEq, Named.param.injEq, Option.some.injEq, reduceCtorEq] at heq
      · exact heq.2
      · exact heq.2.1
    · exact absurd (hwithin hms₁ hF') ((of_owner (howner _) hF).not_within (hle ms₁ m₁ ms₁' hms₁))
    · exact absurd (hwithin hms hF) ((of_owner (howner _) hF').not_within (hle ms m ms' hms))
    · exact within_marks hmono (hwithin hms hF) (hwithin hms₁ hF')

/-- The names that the outermost block has. -/
theorem has_main {a : Arena} {name : Symbol} : (Context.bind [⟨.global, []⟩] a ds).Has name ↔
    ∃ d' ∈ ds, ∃ x, a.decl? d' = some x ∧ x.name = name := by
  constructor
  · rintro ⟨blk, ⟨⟩, D, hD, rfl⟩
    obtain ⟨d', hd', hD'⟩ := List.mem_flatMap.1 (hD : D ∈ ds.flatMap (a.declares 0))
    obtain ⟨x, hx, hname⟩ := Arena.name_of_mem_declares hD'
    exact ⟨d', hd', x, hx, hname⟩
  · rintro ⟨d', hd', x, hx, rfl⟩
    obtain ⟨D, hD, hname⟩ : ∃ D ∈ a.declares 0 d', D.name = x.name := by
      cases x with
      | varDecl v => exact ⟨_, by rw [Arena.declares_var hx]; exact List.mem_cons_self, rfl⟩
      | funDecl f => exact ⟨_, by rw [Arena.declares_fun hx]; exact List.mem_cons_self, rfl⟩
      | classDecl c => exact ⟨_, by rw [Arena.declares_class hx, if_pos rfl]; exact List.mem_cons_self, rfl⟩
    exact ⟨_, rfl, D, List.mem_flatMap.2 ⟨d', hd', hD⟩, hname⟩

/-- Inside a class the classes are known that are known around it, and the class itself. -/
theorem knowsClass_inside (hf : Fits p Γ) (hpassed : p.passed Γ = done) (hopen : Γ.map Block.kind = [.global])
    {name : Symbol} {b : Binder} (hb : Exact p.arena Γ done (some name) b) (cls : Symbol) :
    b.knowsClass cls = true ↔ Context.KnowsClass (⟨.cls name, []⟩ :: Γ) cls := by
  have hglobal := hf.global
  rw [hpassed] at hglobal
  rw [hb.knowsClass_iff hglobal, Context.KnowsClass, Context.globalClass_cons _ hf.rooted.ne_nil,
    Context.isSome_openClass?, List.map_cons, hopen, or_comm]
  simp [eq_comm]

/-- Inside a method at the outermost level the declarations before that of the class have passed. -/
theorem passed_method (hne : Γ ≠ []) (hpassed : p.passed Γ = done) (c : Class) (ms : List Function) (m : Function) :
    p.passed (m.block :: c.block ms :: Γ.declareAll [c.declared]) = done := by
  rw [passed_cons _ (by simpa [Context.depth] using hne), passed_enter _ hne, hpassed]

/-- What a class declares itself is not inside one of its methods. -/
theorem not_inside_method (hp : p.Placed) (hd : p.arena.DeclAt k (n + 1) s d t) {c : Class}
    (hx : p.arena.decl? d = some (.classDecl c)) {ms ms' : List Function} {m : Function} (hms : c.methods = ms ++ m :: ms')
    {sp : Spot} {e : BindError} (hof : sp.Of d) : ¬p.Inside names Γ' m.locals m.body sp e := by
  obtain ⟨s', t', ⟨q, hlocals, hfill⟩, -, ht'⟩ := (hd.methods hx).of_mem (fun hf => hf.before)
    (hms ▸ List.mem_append_right ms List.mem_cons_self)
  exact fun hin => hof.not_within ht'.2 (hin.within hp.postordered hlocals hfill)

variable (names) in
/-- **A class at the outermost level is begun, bound inside and left,** with the faults of its shape and then those of
its name, of its fields and of its methods. -/
theorem tells_classParts (hp : p.Placed) (hk : k ≤ maxNesting) (h : TellsDecls p names k n)
    (hr : p.Region Γ (ds ++ d :: ds') body) (hd : p.arena.DeclAt k (n + 1) s d t) {c : Class}
    (hx : p.arena.decl? d = some (.classDecl c)) (hdepth : Γ.depth = 0) : ∃ declared,
    (∀ b, Stands p (Γ.bind p.arena ds) b → (decl p.arena names (n + 1) d b).2 =
      ((do beginClass names c; openClass names c; methods p.arena names n c.methods; leaveClass c declared) b).2) ∧
    Tells (Stands p (Γ.bind p.arena ds)) (beginClass names c) (Exact p.arena (Γ.bind p.arena ds) ds (some c.name))
      (Faults.shape names d (Γ.bind p.arena ds) c) ∧
    Tells (Exact p.arena (c.block c.methods :: (Γ.bind p.arena ds).declareAll [c.declared]) ds (some c.name))
      (leaveClass c declared) (Stands p (Γ.bind p.arena (ds ++ [d]))) (fun _ _ => False) ∧
    Tells (Exact p.arena (Γ.bind p.arena ds) ds (some c.name))
      (do openClass names c; methods p.arena names n c.methods; leaveClass c declared)
      (Stands p (Γ.bind p.arena (ds ++ [d]))) (p.inClass names (Γ.bind p.arena ds) d c) := by
  have hf := fits_of_region hp hr rfl
  have hne := hf.rooted.ne_nil
  obtain ⟨rfl, hpassed, hpassed'⟩ := region_outermost hp hr hdepth
  have hdepth' : (Context.bind [⟨.global, []⟩] p.arena ds).depth = 0 := Context.depth_bind _ _ _
  have hbefore : Stands p (Context.bind [⟨.global, []⟩] p.arena ds) =
      Exact p.arena (Context.bind [⟨.global, []⟩] p.arena ds) ds none := by rw [Stands, hpassed]; rfl
  have hafter : Stands p (Context.bind [⟨.global, []⟩] p.arena (ds ++ [d])) =
      Exact p.arena ((Context.bind [⟨.global, []⟩] p.arena ds).declareAll [c.declared]) (ds ++ [d]) none := by
    rw [Stands, hpassed', Context.bind_append, bind_singleton ((Arena.declares_class hx _).trans (if_pos hdepth'))]
    rfl
  obtain ⟨declared, hdeclared, hrun⟩ := decl_class names n hx hne hdepth'
  have hopen : Tells (Exact p.arena _ ds (some c.name)) _ _ _ := tells_openClass names hne c d
  have hmethods := tells_methods names hp hk h (fun ms m ms' hms => Program.Region.method hr hx hdepth hms)
    (hd.methods hx) (Nat.le_refl _) (fun ms m => passed_method hne hpassed c ms m) (fun ms m => rfl)
  have hfree : declared = true ↔ ∀ d' ∈ ds, ∀ x, p.arena.decl? d' = some x → x.name ≠ c.name := by
    rw [hdeclared, has_main]
    simp
  have hleave : Tells (Exact p.arena (c.block c.methods :: (Context.bind [⟨.global, []⟩] p.arena ds).declareAll [c.declared])
      ds (some c.name)) (leaveClass c declared) _ _ := tells_leaveClass hx (Context.length_declareAll _ _) hfree
  rw [hbefore, hafter]
  refine ⟨declared, fun b hb => (hrun b hb.scopes).trans (by rw [enterClass_eq]; rfl),
    tells_beginClass names (fun b hb => knowsClass_inside hf hpassed rfl hb) d, hleave,
    hopen.seq (hmethods.before hleave) ?_⟩
  rintro sp e e' hF ⟨ms, m, ms', hms, hhead | hin⟩
  · rcases of_head hhead with rfl | ⟨i, rfl⟩ <;> rcases hF with ⟨-, heq, -⟩ | ⟨_, _, _, -, -, heq, -⟩ <;> cases heq
  · exact not_inside_method hp hd hx hms ((misdeclared_class hx hdepth').2 (.inr (.inl hF))).of hin

theorem tells_classDecl (hp : p.Placed) (hk : k ≤ maxNesting) (h : TellsDecls p names k n)
    (hr : p.Region Γ (ds ++ d :: ds') body) (hd : p.arena.DeclAt k (n + 1) s d t) {c : Class}
    (hx : p.arena.decl? d = some (.classDecl c)) (hdepth : Γ.depth = 0) :
    Tells (Stands p (Γ.bind p.arena ds)) (decl p.arena names (n + 1) d) (Stands p (Γ.bind p.arena (ds ++ [d])))
      (p.ofDecl names (Γ.bind p.arena ds) d) := by
  have hdepth' : (Γ.bind p.arena ds).depth = 0 := by rwa [Context.depth_bind]
  obtain ⟨declared, hrun, hbegin, -, hinside⟩ := tells_classParts names hp hk h hr hd hx hdepth
  refine (hbegin.seq hinside ?_).congr hrun fun sp e => Program.ofDecl_class hx hdepth'
  rintro sp e e' hF (hF' | ⟨ms, m, ms', hms, hhead | hin⟩)
  · rcases hF with ⟨_, _, _, -, _, _, -, -, rfl, -⟩ | ⟨_, _, _, -, _, _, -, -, rfl, -⟩ <;>
      rcases hF' with ⟨-, heq, -⟩ | ⟨_, _, _, -, -, heq, -⟩ <;> cases heq
  · rcases of_head hhead with rfl | ⟨i, rfl⟩ <;> rcases hF with ⟨_, _, _, -, _, _, -, -, heq, -⟩ |
      ⟨_, _, _, -, _, _, -, -, heq, -⟩ <;> cases heq
  · exact not_inside_method hp hd hx hms ((misdeclared_class hx hdepth').2 (.inl hF)).of hin

/-- A class that is not at the outermost level is reported, and nothing inside it. -/
theorem tells_misplaced (hp : p.Placed) (hr : p.Region Γ (ds ++ d :: ds') body) {c : Class}
    (hx : p.arena.decl? d = some (.classDecl c)) (hdepth : Γ.depth ≠ 0) :
    Tells (Stands p (Γ.bind p.arena ds)) (decl p.arena names (n + 1) d) (Stands p (Γ.bind p.arena (ds ++ [d])))
      (p.ofDecl names (Γ.bind p.arena ds) d) := by
  have hdepth' : (Γ.bind p.arena ds).depth ≠ 0 := by rwa [Context.depth_bind]
  intro b hb
  rw [decl_classDecl hx, if_neg (by rwa [hb.scopes, Context.depth_scopes])]
  refine ⟨stands_behind hp hr (fun h0 => absurd h0 hdepth) (hb.to ?_ rfl rfl), _,
    (lists_singleton _ _).congr fun sp e => Program.ofDecl_misplaced hx hdepth', rfl⟩
  rw [Context.bind_append, bind_singleton ((Arena.declares_class hx _).trans (if_neg hdepth')), Context.declareAll_nil]
  exact hb.scopes

/-- **Binding a declaration reports the faults of it and of what is inside.** -/
theorem tells_decl (hp : p.Placed) (hk : k ≤ maxNesting) (n : Nat) : TellsDecls p names k n := by
  induction n with
  | zero => intro _ _ _ _ _ _ _ _ hd; exact hd.elim
  | succ n ih =>
    intro Γ ds ds' d body s t hr hd
    obtain ⟨x, hx⟩ := hd.exists_decl?
    cases x with
    | varDecl v => exact tells_varDecl hp hk hr hd hx
    | funDecl f => exact tells_funDecl hp hk ih hr hd hx
    | classDecl c =>
      by_cases hdepth : Γ.depth = 0
      · exact tells_classDecl hp hk ih hr hd hx hdepth
      · exact tells_misplaced hp hr hx hdepth

/-- At the beginning nothing is declared, and no class has been read. -/
theorem stands_start (p : Program) :
    Stands p [⟨.global, []⟩] { start p.arena.nodes.size with scopes := Scopes.empty.push (.empty .global) } := by
  refine ⟨rfl, rfl, fun name info => ⟨nofun, ?_⟩⟩
  rintro ⟨c, ⟨before, d, after, heq, -⟩, -⟩
  exact absurd heq (by simp [Program.passed, Context.depth, Context.globals])

end Binder

/-- **Binding reports the faults of a program, each once:** the errors are the faults of the spots that have one. -/
theorem bind_reports {text : String} {names names' : Names} {p : Program}
    (h : Program.parse text names = (.ok p, names')) (ns : Names) :
    ∃ faults : List (Spot × BindError), (p.bind ns).errors = faults.map Prod.snd ∧ (faults.map Prod.fst).Nodup ∧
      ∀ s e, (s, e) ∈ faults ↔ p.Fault ns s e := by
  have hp := placed_of_parse h
  obtain ⟨q, hrow, hfill⟩ := hp.row
  have htells : Binder.Tells _ (Binder.region p.arena ns _ _ _) _ _ :=
    Binder.tells_region hp Binder.nestingBound_le (Binder.tells_decl hp Binder.nestingBound_le _) .main hrow hfill
  obtain ⟨-, faults, hlists, herr⟩ := htells _ (Binder.stands_start p)
  exact ⟨faults, herr, hlists.once, fun s e => (hlists.mem s e).trans Program.fault_iff_inside.symm⟩

/-- The tree of `let var x:C = 1; var x:int = y; in x.m();`. -/
def faultyCall : Program where
  arena :=
    ⟨#[⟨.int 1, some ⟨1, 15, 14⟩⟩, ⟨.name ⟨2⟩, some ⟨1, 30, 29⟩⟩, ⟨.methodCall ⟨0⟩ ⟨3⟩ [], some ⟨1, 36, 35⟩⟩],
      #[.varDecl ⟨⟨0⟩, .object ⟨1⟩, ⟨0⟩, some ⟨1, 5, 4⟩⟩, .varDecl ⟨⟨0⟩, .int, ⟨1⟩, some ⟨1, 18, 17⟩⟩]⟩
  declarations := [⟨0⟩, ⟨1⟩]
  body := ⟨2⟩

theorem parse_faultyCall : Program.parse "let var x:C = 1; var x:int = y; in x.m();" .empty =
    (.ok faultyCall, ⟨#["x", "C", "y", "m"]⟩) := by
  decide +kernel

/-- The call of a method of an unknown class is not a fault on top of the others. -/
theorem bind_reports_faultyCall :
    (faultyCall.bind ⟨#["x", "C", "y", "m"]⟩).errors = [⟨.unknownClass "C", some ⟨1, 5, 4⟩⟩,
      ⟨.unresolvedIdentifier "y", some ⟨1, 30, 29⟩⟩, ⟨.duplicateDeclaration "x", some ⟨1, 18, 17⟩⟩] ∧
    ∀ s e, faultyCall.Fault ⟨#["x", "C", "y", "m"]⟩ s e →
      e ∈ (faultyCall.bind ⟨#["x", "C", "y", "m"]⟩).errors := by
  obtain ⟨faults, herr, -, hfault⟩ := bind_reports parse_faultyCall ⟨#["x", "C", "y", "m"]⟩
  refine ⟨by decide +kernel, fun s e h => ?_⟩
  rw [herr]
  exact List.mem_map_of_mem ((hfault s e).2 h)

end Fool
