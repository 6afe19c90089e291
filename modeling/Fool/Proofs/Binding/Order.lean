import Fool.Proofs.Binding.Reports
import Fool.Proofs.Parse.Places
import Mathlib.Data.List.Pairwise

/-!
# In which order faults are reported

Faults are reported in the order of the text, with two exceptions (`Program.Inverts`): a variable stands in front of its
initial value, which is bound before it is declared; and the types of all members of a class are looked up before its
name, its fields and its methods are declared.

`Inversions` are the pairs of errors in a list that are out of order, `Orders` says which of them a step makes. Steps
whose places are in order can follow one another (`Orders.seq`). The places of a program are (`rises_of_parse`), so the
inversions are those of its declarations (`orders_decl`, `bind_order`).
-/

namespace Fool

/-! ## Inversions -/

namespace BindError

/-- The error stands in front of another one. -/
def Ahead (e e' : BindError) : Prop := ∃ l l', e.location = some l ∧ e'.location = some l' ∧ l.Ahead l'

/-- The place of the second error is behind that of the first, or the same. -/
def InOrder (e e' : BindError) : Prop :=
  ∃ l l', e.location = some l ∧ e'.location = some l' ∧ l.offset ≤ l'.offset ∧ l.line ≤ l'.line

end BindError

/-- What can use a name wrongly refers to something. -/
theorem Program.Misuse.refers {p : Program} {names : Names} {Γ : Context} {x : Expr} {cause : BindError.Cause}
    (h : p.Misuse names Γ x cause) : x.refers = true := by
  cases h with
  | unresolved hs _ => cases x <;> first | rfl | cases hs
  | _ => rfl

section Inversions

variable {L L' : List (Option Location)} {es es' : List BindError} {E E' : BindError → BindError → Prop}
  {e e' : BindError} {place : Option Location}

/-- No place of the second list is in front of one of the first. -/
def Upward (L L' : List (Option Location)) : Prop := ∀ l l', some l ∈ L → some l' ∈ L' → ¬l'.Ahead l

theorem Location.Ahead.not_ahead {l l' : Location} (h : l.Ahead l') : ¬l'.Ahead l := fun h' =>
  absurd h.1 (UInt32.lt_asymm h'.1)

theorem upward_self (place : Option Location) : Upward [place] [place] := by
  intro l l' hl hl' h
  rw [List.mem_singleton] at hl hl'
  obtain rfl : l = l' := Option.some.inj (hl.trans hl'.symm)
  exact h.not_ahead h

theorem Rises.ahead (h : Rises (L ++ L')) {l l' : Location} (hl : some l ∈ L) (hl' : some l' ∈ L') : l.Ahead l' := by
  obtain ⟨ls, heq, hls⟩ := h
  obtain ⟨ls, ls', rfl, rfl, rfl⟩ := List.append_eq_map_iff.1 heq
  have hmem {l : Location} {ls : List Location} (h : some l ∈ ls.map some) : l ∈ ls := by simpa using h
  exact (List.pairwise_append.1 hls).2.2 l (hmem hl) l' (hmem hl')

theorem Rises.upward (h : Rises (L ++ L')) : Upward L L' := fun _ _ hl hl' => (h.ahead hl hl').not_ahead

/-- At its beginning a list of places may be looked at twice. -/
theorem Rises.upward_head (h : Rises (place :: L)) : Upward [place] (place :: L) := by
  intro l l' hl hl'
  rcases List.mem_cons.1 hl' with heq | hl'
  · exact upward_self place l l' hl (List.mem_singleton.2 heq)
  · exact Rises.upward (L := [place]) h l l' hl hl'

theorem Rises.mem (h : Rises L) (hp : place ∈ L) : ∃ l, place = some l := by
  obtain ⟨ls, rfl, -⟩ := h
  obtain ⟨l, -, rfl⟩ := List.mem_map.1 hp
  exact ⟨l, rfl⟩

/-- Of two places one is in front of the other, or they are the same. -/
theorem Rises.trichotomy (h : Rises L) {l l' : Location} (hl : some l ∈ L) (hl' : some l' ∈ L) :
    l = l' ∨ l.Ahead l' ∨ l'.Ahead l := by
  obtain ⟨ls, rfl, hls⟩ := h
  have hmem {l : Location} (h : some l ∈ ls.map some) : l ∈ ls := by simpa using h
  have hsymm : Std.Symm fun l l' : Location => l = l' ∨ l.Ahead l' ∨ l'.Ahead l := ⟨fun _ _ h => h.imp Eq.symm Or.symm⟩
  have hall : ls.Pairwise fun l l' => l = l' ∨ l.Ahead l' ∨ l'.Ahead l := hls.imp fun h => .inr (.inl h)
  exact List.Pairwise.forall_of_forall (fun _ _ => .inl rfl) hall (hmem hl) (hmem hl')

/-- Errors at places of a program are in order, or inverted. -/
theorem Rises.inOrder_iff (h : Rises L) (he : e.location ∈ L) (he' : e'.location ∈ L) : e.InOrder e' ↔ ¬e'.Ahead e := by
  obtain ⟨l, hl⟩ := h.mem he
  obtain ⟨l', hl'⟩ := h.mem he'
  constructor
  · rintro ⟨_, _, hl, hl', hle, -⟩ ⟨_, _, hr', hr, hlt, -⟩
    cases hl.symm.trans hr
    cases hl'.symm.trans hr'
    exact absurd hlt (UInt32.not_lt.2 hle)
  · intro hnot
    refine ⟨l, l', hl, hl', ?_⟩
    rcases h.trichotomy (hl ▸ he) (hl' ▸ he') with rfl | ⟨hlt, hline⟩ | h'
    · exact ⟨UInt32.le_refl _, UInt32.le_refl _⟩
    · exact ⟨UInt32.le_of_lt hlt, hline⟩
    · exact absurd ⟨l', l, hl', hl, h'⟩ hnot

/-- The errors have places in `L`, and `E` holds of two of them if the second one stands in front of the first. -/
structure Inversions (es : List BindError) (L : List (Option Location)) (E : BindError → BindError → Prop) : Prop where
  located : ∀ e ∈ es, e.location ∈ L
  pairs : ∀ e e', E e e' ↔ [e, e'].Sublist es ∧ e'.Ahead e

theorem pair_sublist_append {α : Type} {x y : α} {l l' : List α} :
    [x, y].Sublist (l ++ l') ↔ [x, y].Sublist l ∨ [x, y].Sublist l' ∨ x ∈ l ∧ y ∈ l' := by
  rw [List.sublist_append_iff]
  constructor
  · rintro ⟨k, k', heq, hk, hk'⟩
    match k, heq with
    | [], heq => exact .inr (.inl (heq ▸ hk'))
    | [_], heq =>
      cases heq
      exact .inr (.inr ⟨List.singleton_sublist.1 hk, List.singleton_sublist.1 hk'⟩)
    | [_, _], heq =>
      cases heq
      exact .inl hk
  · rintro (h | h | ⟨hx, hy⟩)
    · exact ⟨_, [], rfl, h, List.nil_sublist _⟩
    · exact ⟨[], _, rfl, List.nil_sublist _, h⟩
    · exact ⟨[x], [y], rfl, List.singleton_sublist.2 hx, List.singleton_sublist.2 hy⟩

theorem Inversions.append (h : Inversions es L E) (h' : Inversions es' L' E') : Inversions (es ++ es') (L ++ L')
    fun e e' => (E e e' ∨ E' e e') ∨ e ∈ es ∧ e' ∈ es' ∧ e'.Ahead e where
  located e he := by
    rcases List.mem_append.1 he with he | he
    · exact List.mem_append_left _ (h.located e he)
    · exact List.mem_append_right _ (h'.located e he)
  pairs e e' := by
    rw [pair_sublist_append, h.pairs, h'.pairs]
    tauto

end Inversions

namespace Binder

open Arena

variable {P P' P'' : Binder → Prop} {m m' : BindM Unit} {L L' : List (Option Location)}
  {E E' : BindError → BindError → Prop} {F F' : Faults}

/-! ## The inversions of steps -/

/-- From a state with `P` the step leads to one with `P'`; what it reports has places in `L` and these inversions. -/
def Orders (P : Binder → Prop) (m : BindM Unit) (P' : Binder → Prop) (L : List (Option Location))
    (E : BindError → BindError → Prop) : Prop :=
  ∀ b, P b → P' (m b).2 ∧ ∃ es, (m b).2.errors = b.errors ++ es ∧ Inversions es L E

theorem Orders.congr (h : Orders P m P' L E) (hm : ∀ b, P b → (m' b).2 = (m b).2) (hL : L ⊆ L')
    (hE : ∀ e e', E' e e' ↔ E e e') : Orders P m' P' L' E' := by
  intro b hb
  rw [hm b hb]
  obtain ⟨hpost, es, herr, hes⟩ := h b hb
  exact ⟨hpost, es, herr, fun e he => hL (hes.located e he), fun e e' => (hE e e').trans (hes.pairs e e')⟩

/-- What is known of the state behind the step may be known from the faults that it reports. -/
theorem Orders.leads (h : Orders P m P' L E) (ht : Tells P m P'' F) : Orders P m P'' L E := fun b hb =>
  ⟨(ht b hb).1, (h b hb).2⟩

/-- A step that reports faults at one place makes no inversion. -/
theorem orders_at {place : Option Location} (ht : Tells P m P' F) (hF : ∀ s e, F s e → e.location = place) :
    Orders P m P' [place] fun _ _ => False := by
  intro b hb
  obtain ⟨hpost, fs, hfs, herr⟩ := ht b hb
  have hplace : ∀ e ∈ fs.map Prod.snd, e.location = place := fun e he => by
    obtain ⟨⟨s, e⟩, hmem, rfl⟩ := List.mem_map.1 he
    exact hF s e ((hfs.mem s e).1 hmem)
  refine ⟨hpost, _, herr, fun e he => List.mem_singleton.2 (hplace e he), fun e e' => ⟨False.elim, ?_⟩⟩
  rintro ⟨hsub, l, l', hl, hl', hahead⟩
  have he := hplace e (hsub.subset List.mem_cons_self)
  have he' := hplace e' (hsub.subset (.tail _ List.mem_cons_self))
  exact upward_self place l' l (List.mem_singleton.2 (hl'.symm.trans he)) (List.mem_singleton.2 (hl.symm.trans he')) hahead

theorem orders_quiet (ht : Tells P m P' fun _ _ => False) : Orders P m P' [] fun _ _ => False := by
  intro b hb
  obtain ⟨hpost, fs, hfs, herr⟩ := ht b hb
  obtain rfl : fs = [] := List.eq_nil_iff_forall_not_mem.2 fun q hq => (hfs.mem _ _).1 hq
  exact ⟨hpost, [], herr, nofun, fun e e' => ⟨False.elim, fun h => nomatch h.1⟩⟩

theorem Orders.seq (h : Orders P m P' L E) (h' : Orders P' m' P'' L' E') (hL : Upward L L') :
    Orders P (do m; m') P'' (L ++ L') fun e e' => E e e' ∨ E' e e' := by
  intro b hb
  obtain ⟨hpost, es, herr, hes⟩ := h b hb
  obtain ⟨hpost', es', herr', hes'⟩ := h' _ hpost
  have hall := hes.append hes'
  refine ⟨hpost', es ++ es', by rw [bind_run, herr', herr, List.append_assoc], hall.located, fun e e' => ?_⟩
  rw [← hall.pairs]
  refine (or_iff_left ?_).symm
  rintro ⟨he, he', l', l, hl', hl, hahead⟩
  exact hL l l' (hl ▸ hes.located e he) (hl' ▸ hes'.located e' he') hahead

/-- Where the places are not in order, the faults of both steps tell the inversions. -/
theorem Orders.cross (h : Orders P m P' L E) (h' : Orders P' m' P'' L' E') (ht : Tells P m P' F)
    (ht' : Tells P' m' P'' F') : Orders P (do m; m') P'' (L ++ L')
      fun e e' => (E e e' ∨ E' e e') ∨ (∃ s, F s e) ∧ (∃ s, F' s e') ∧ e'.Ahead e := by
  have hmem {P P' : Binder → Prop} {m : BindM Unit} {F : Faults} {b : Binder} {es : List BindError} (ht : Tells P m P' F)
      (hb : P b) (herr : (m b).2.errors = b.errors ++ es) (e : BindError) : (∃ s, F s e) ↔ e ∈ es := by
    obtain ⟨-, fs, hfs, herr'⟩ := ht b hb
    obtain rfl := List.append_cancel_left (herr'.symm.trans herr)
    simp [← hfs.mem]
  intro b hb
  obtain ⟨hpost, es, herr, hes⟩ := h b hb
  obtain ⟨hpost', es', herr', hes'⟩ := h' _ hpost
  have hall := hes.append hes'
  refine ⟨hpost', es ++ es', by rw [bind_run, herr', herr, List.append_assoc], hall.located, fun e e' => ?_⟩
  rw [hmem ht hb herr, hmem ht' hpost herr', ← hall.pairs]

/-- A quiet step in front. -/
theorem Orders.after (h : Orders P' m' P'' L E) (ht : Tells P m P' fun _ _ => False) : Orders P (do m; m') P'' L E :=
  ((orders_quiet ht).seq h fun _ _ h => nomatch h).congr (fun _ _ => rfl) (fun _ => id) fun _ _ => (false_or _).symm.to_iff

/-- A quiet step behind. -/
theorem Orders.before (h : Orders P m P' L E) (ht : Tells P' m' P'' fun _ _ => False) : Orders P (do m; m') P'' L E :=
  (h.seq (orders_quiet ht) fun _ _ _ h => nomatch h).congr (fun _ _ => rfl) (by simp) fun _ _ => (or_false _).symm.to_iff

/-- Steps for the elements of a list have the inversions of the elements, if the places of the elements rise. -/
theorem orders_forM {α : Type} {Q : List α → Binder → Prop} {f : α → BindM Unit} {places : α → List (Option Location)}
    {G : List α → α → BindError → BindError → Prop} {xs : List α} (hL : Rises (xs.flatMap places))
    (h : ∀ before x after, xs = before ++ x :: after → Orders (Q before) (f x) (Q (before ++ [x])) (places x) (G before x)) :
    Orders (Q []) (xs.forM f) (Q xs) (xs.flatMap places)
      fun e e' => ∃ before x after, xs = before ++ x :: after ∧ G before x e e' := by
  suffices hall : ∀ ys zs, xs = ys ++ zs → Orders (Q []) (ys.forM f) (Q ys) (ys.flatMap places)
      fun e e' => ∃ before x after, ys = before ++ x :: after ∧ G before x e e' from hall xs [] (List.append_nil xs).symm
  intro ys
  induction ys using List.reverseRecOn with
  | nil =>
    intro zs _
    have hnone : Tells (Q []) (pure ()) (Q []) fun _ _ => False := tells_quiet fun b hb => ⟨hb, rfl⟩
    exact (orders_quiet hnone).congr (fun _ _ => rfl) (fun _ => id) fun e e' => by simp
  | append_singleton ys x ih =>
    intro zs hxs
    have hrises : Rises (ys.flatMap places ++ places x) := by
      refine hL.sublist ?_
      rw [hxs, List.flatMap_append, List.flatMap_append, List.flatMap_singleton]
      exact List.sublist_append_left _ _
    rw [List.append_assoc, List.singleton_append] at hxs
    refine ((ih (x :: zs) hxs).seq (h ys x zs hxs) hrises.upward).congr (fun b _ => by simp) (by simp) fun e e' => ?_
    exact exists_split_concat

/-! ## Expressions -/

variable {p : Program} {names : Names} {Γ Γ' : Context} {k n : Nat} {s q t : Pos} {ds ds' : List DeclRef} {d : DeclRef}
  {body : ExprRef} {done : List DeclRef} {cls : Option Symbol}

variable (names) in
theorem orders_visit (hf : Fits p Γ) (e : ExprRef) :
    Orders (Stands p Γ) (visit p.arena names e) (Stands p Γ) (p.arena.refPlace e) fun _ _ => False := by
  have ht := tells_visit names hf e
  by_cases hrefers : (p.arena.expr? e).any Expr.refers = true
  · rw [refPlace, if_pos hrefers]
    refine orders_at ht ?_
    rintro s err ⟨_, _, _, _, _, rfl⟩
    rfl
  · rw [refPlace, if_neg hrefers]
    refine orders_quiet (ht.same ?_)
    intro s err
    refine ⟨False.elim, ?_⟩
    rintro ⟨x, cause, hx, hm, -, -⟩
    rw [hx, Option.any_some] at hrefers
    exact hrefers hm.refers

variable (names) in
theorem orders_whole (hpost : p.arena.Postordered) (hk : k ≤ maxNesting) (hf : Fits p Γ) {w : ExprRef}
    (hfill : p.arena.Fill k s [w] t) (hL : Rises (p.arena.refPlaces w)) :
    Orders (Stands p Γ) (whole p.arena names w) (Stands p Γ) (p.arena.refPlaces w) fun _ _ => False := by
  obtain ⟨-, -, hn⟩ := hfill
  have hall : Orders (Stands p Γ) ((p.arena.walk w).forM (visit p.arena names)) _ _ _ :=
    orders_forM (Q := fun _ => Stands p Γ) hL fun _ e _ _ => orders_visit names hf e
  refine hall.congr (fun b _ => ?_) (fun _ => id) (by simp)
  rw [whole, expr_eq_walk hpost ((hn w List.mem_cons_self).mono hk)]
  rfl

/-! ## Declarations -/

variable (names) in
theorem orders_declare (hne : Γ ≠ []) (D : Declared) (place : Option Location) :
    Orders (Exact p.arena Γ done cls) (do let _ ← declare names D.name D.ty D.kind place)
      (Exact p.arena (Γ.declareAll [D]) done cls) [place] fun _ _ => False :=
  orders_at (tells_declare names hne (.decl ⟨0⟩) D place) fun _ _ h => congrArg BindError.location h.2.2

variable (names) in
theorem orders_members (hne : Γ ≠ []) (kind : EntryKind) (xs : List TypedName) (hL : Rises (xs.map (·.location))) :
    Orders (Exact p.arena Γ done cls) (declareAll names kind xs (xs.map fun y => y.ty.checked))
      (Exact p.arena (Γ.declareAll (Declared.members kind xs)) done cls) (xs.map (·.location)) fun _ _ => False := by
  rw [List.map_eq_flatMap] at hL
  have hall : Orders (Exact p.arena (Γ.declareAll []) done cls) (xs.forM (declareMember names kind)) _ _ _ := orders_forM
    (Q := fun before => Exact p.arena (Γ.declareAll (Declared.members kind before)) done cls) hL fun before y _ _ =>
      orders_at (tells_member names hne kind (.decl ⟨0⟩) before y) fun _ _ h => congrArg BindError.location h.2.2
  rw [Context.declareAll_nil] at hall
  rw [declareAll_eq, List.map_eq_flatMap]
  exact hall.congr (fun _ _ => rfl) (fun _ => id) (by simp)

variable (names) in
theorem orders_enterFunction (hne : Γ ≠ []) (f : Function) (kind : EntryKind)
    (hL : Rises (f.location :: f.params.map (·.location))) :
    Orders (Exact p.arena Γ done cls) (enterFunction names f kind)
      (Exact p.arena (f.block :: Γ.declareAll [f.declared kind]) done cls) (f.location :: f.params.map (·.location))
      fun _ _ => False := by
  have hname : Orders (Exact p.arena Γ done cls) _ _ _ _ := orders_declare names hne (f.declared kind) f.location
  have hparams : Orders (Exact p.arena (⟨.function, []⟩ :: Γ.declareAll [f.declared kind]) done cls) _ _ _ _ :=
    orders_members names (List.cons_ne_nil _ _) .param f.params (hL.sublist (List.sublist_cons_self _ _))
  refine (hname.seq (hparams.after (tells_push .function)) ?_).congr (fun b _ => rfl) (fun _ => id) (by simp)
  exact Rises.upward (L := [f.location]) hL

/-! ## What binding a declaration inverts -/

end Binder

/-- Of two faults that binding a declaration reports the second one stands in front of the first. -/
inductive Program.Inverts (p : Program) (names : Names) : Context → DeclRef → BindError → BindError → Prop
  /-- The initial value of a variable is bound first. -/
  | var {Γ : Context} {d : DeclRef} {v : Variable} {sp sp' : Spot} {e e' : BindError} :
      p.arena.decl? d = some (.varDecl v) → p.whole names Γ v.init sp e → p.arena.Misdeclared names Γ d sp' e' →
      Inverts p names Γ d e e'
  /-- The types of all members of a class are looked up first. -/
  | cls {Γ : Context} {d : DeclRef} {c : Class} {sp sp' : Spot} {e e' : BindError} :
      p.arena.decl? d = some (.classDecl c) → Γ.depth = 0 → Faults.shape names d Γ c sp e →
      p.inClass names Γ d c sp' e' → e'.Ahead e → Inverts p names Γ d e e'
  /-- A declaration inside a function or a method. -/
  | inner {Γ Γ' : Context} {d d' : DeclRef} {f : Function} {ds ds' : List DeclRef} {e e' : BindError} :
      p.arena.Opens Γ d Γ' f → f.locals = ds ++ d' :: ds' → Inverts p names (Γ'.bind p.arena ds) d' e e' →
      Inverts p names Γ d e e'

/-- One of the declarations is bound so. -/
def Program.InvertsIn (p : Program) (names : Names) (Γ : Context) (ds : List DeclRef) (e e' : BindError) : Prop :=
  ∃ before d after, ds = before ++ d :: after ∧ p.Inverts names (Γ.bind p.arena before) d e e'

namespace Program

variable {p : Program} {names : Names} {Γ : Context} {d : DeclRef} {e e' : BindError}

theorem inverts_var {v : Variable} (hx : p.arena.decl? d = some (.varDecl v)) : p.Inverts names Γ d e e' ↔
    (∃ sp, p.whole names Γ v.init sp e) ∧ ∃ sp, p.arena.Misdeclared names Γ d sp e' := by
  constructor
  · intro h
    cases h with
    | var hy hinit hown => cases hx.symm.trans hy; exact ⟨⟨_, hinit⟩, _, hown⟩
    | cls hy _ _ _ _ => cases hx.symm.trans hy
    | inner ho _ _ => cases ho with
      | function hy | method hy _ _ => cases hx.symm.trans hy
  · rintro ⟨⟨_, hinit⟩, _, hown⟩
    exact .var hx hinit hown

theorem inverts_fun {f : Function} (hx : p.arena.decl? d = some (.funDecl f)) : p.Inverts names Γ d e e' ↔
    p.InvertsIn names (f.block :: Γ.declareAll [f.declared .func]) f.locals e e' := by
  constructor
  · intro h
    cases h with
    | var hy _ _ | cls hy _ _ _ _ => cases hx.symm.trans hy
    | inner ho hds h => cases ho with
      | function hy => cases hx.symm.trans hy; exact ⟨_, _, _, hds, h⟩
      | method hy _ _ => cases hx.symm.trans hy
  · rintro ⟨_, _, _, hds, h⟩
    exact .inner (.function hx) hds h

theorem inverts_class {c : Class} (hx : p.arena.decl? d = some (.classDecl c)) (hdepth : Γ.depth = 0) :
    p.Inverts names Γ d e e' ↔
      (∃ ms m ms', c.methods = ms ++ m :: ms' ∧
        p.InvertsIn names (m.block :: c.block (ms ++ [m]) :: Γ.declareAll [c.declared]) m.locals e e') ∨
      (∃ sp, Faults.shape names d Γ c sp e) ∧ (∃ sp, p.inClass names Γ d c sp e') ∧ e'.Ahead e := by
  constructor
  · intro h
    cases h with
    | var hy _ _ => cases hx.symm.trans hy
    | cls hy _ hshape hin hahead => cases hx.symm.trans hy; exact .inr ⟨⟨_, hshape⟩, ⟨_, hin⟩, hahead⟩
    | inner ho hds h => cases ho with
      | function hy => cases hx.symm.trans hy
      | method hy _ hms => cases hx.symm.trans hy; exact .inl ⟨_, _, _, hms, _, _, _, hds, h⟩
  · rintro (⟨_, _, _, hms, _, _, _, hds, h⟩ | ⟨⟨_, hshape⟩, ⟨_, hin⟩, hahead⟩)
    · exact .inner (.method hx hdepth hms) hds h
    · exact .cls hx hdepth hshape hin hahead

theorem not_inverts_misplaced {c : Class} (hx : p.arena.decl? d = some (.classDecl c)) (hdepth : Γ.depth ≠ 0) :
    ¬p.Inverts names Γ d e e' := by
  intro h
  cases h with
  | var hy _ _ => cases hx.symm.trans hy
  | cls _ h0 _ _ _ => exact hdepth h0
  | inner ho _ _ => cases ho with
    | function hy => cases hx.symm.trans hy
    | method _ h0 _ => exact hdepth h0

end Program

namespace Binder

open Arena

variable {p : Program} {names : Names} {Γ Γ' : Context} {k n : Nat} {s q t : Pos} {ds ds' : List DeclRef} {d : DeclRef}
  {body : ExprRef} {done : List DeclRef} {cls : Option Symbol}

/-- Binding a declaration at its place has the inversions of the declaration. -/
def OrdersDecls (p : Program) (names : Names) (k n : Nat) : Prop :=
  ∀ {Γ : Context} {ds ds' : List DeclRef} {d : DeclRef} {body : ExprRef} {s t : Pos}, p.Region Γ (ds ++ d :: ds') body →
    p.arena.DeclAt k n s d t → Rises (p.arena.places n d) →
    Orders (Stands p (Γ.bind p.arena ds)) (decl p.arena names n d) (Stands p (Γ.bind p.arena (ds ++ [d])))
      (p.arena.places n d) (p.Inverts names (Γ.bind p.arena ds) d)

theorem orders_region (hp : p.Placed) (hk : k ≤ maxNesting) (h : OrdersDecls p names k n) (hr : p.Region Γ ds body)
    (hrow : Row (p.arena.DeclAt k n) s ds q) (hfill : p.arena.Fill k q [body] t)
    (hL : Rises (ds.flatMap (p.arena.places n) ++ p.arena.refPlaces body)) :
    Orders (Stands p Γ) (region p.arena names n ds body) (Stands p (Γ.bind p.arena ds))
      (ds.flatMap (p.arena.places n) ++ p.arena.refPlaces body) (p.InvertsIn names Γ ds) := by
  have hat : ∀ d ∈ ds, ∃ s t, p.arena.DeclAt k n s d t := fun d hd => hrow.imp_mem hd
  have hdecls : Orders (Stands p (Γ.bind p.arena [])) (ds.forM (decl p.arena names n)) _ _ _ :=
    orders_forM (Q := fun before => Stands p (Γ.bind p.arena before)) (hL.sublist (List.sublist_append_left _ _))
      fun before d after hds => by
        obtain ⟨s, t, hd⟩ := hat d (by simp [hds])
        refine h (hds ▸ hr) hd (hL.sublist ?_)
        rw [hds, List.flatMap_append, List.flatMap_cons]
        exact ((List.sublist_append_left _ _).trans (List.sublist_append_right _ _)).trans (List.sublist_append_left _ _)
  rw [Context.bind_nil] at hdecls
  have hbody := orders_whole names hp.postordered hk (fits_of_region hp hr (List.append_nil ds).symm) hfill
    (hL.sublist (List.sublist_append_right _ _))
  exact (hdecls.seq hbody hL.upward).congr (fun b _ => rfl) (fun _ => id) fun _ _ => (or_false _).symm.to_iff

theorem orders_function (hp : p.Placed) (hk : k ≤ maxNesting) (h : OrdersDecls p names k n) (hne : Γ ≠ []) {f : Function}
    {kind : EntryKind} (hr : p.Region (f.block :: Γ.declareAll [f.declared kind]) f.locals f.body)
    (hat : p.arena.FunctionAt k (p.arena.DeclAt k n) s f t)
    (hdone : p.passed (f.block :: Γ.declareAll [f.declared kind]) = done)
    (hcls : Context.class? (f.block :: Γ.declareAll [f.declared kind]) = cls)
    (hL : Rises (p.arena.functionPlaces (p.arena.places n) f)) :
    Orders (Exact p.arena Γ done cls) (do enterFunction names f kind; region p.arena names n f.locals f.body; leave)
      (Exact p.arena (Γ.declareAll [f.declared kind]) done cls) (p.arena.functionPlaces (p.arena.places n) f)
      (p.InvertsIn names (f.block :: Γ.declareAll [f.declared kind]) f.locals) := by
  obtain ⟨q, hrow, hfill⟩ := hat
  have hparts : Rises ((f.location :: f.params.map (·.location)) ++
      (f.locals.flatMap (p.arena.places n) ++ p.arena.refPlaces f.body)) := hL
  have henter : Orders (Exact p.arena Γ done cls) _ _ _ _ :=
    orders_enterFunction names hne f kind (hparts.sublist (List.sublist_append_left _ _))
  have hin := orders_region hp hk h hr hrow hfill (hparts.sublist (List.sublist_append_right _ _))
  rw [stands_bind (depth_inside f kind hne) hdone hcls, Stands, hdone, hcls] at hin
  exact (henter.seq (hin.before (tells_leave _)) hparts.upward).congr (fun _ _ => rfl) (fun _ => id)
    fun _ _ => (false_or _).symm.to_iff

/-- A fault of an expression has the place of a reference below it. -/
theorem location_whole {w : ExprRef} {sp : Spot} {e : BindError} (h : p.whole names Γ w sp e) :
    e.location ∈ p.arena.refPlaces w := by
  obtain ⟨r, hr, x, cause, hx, hm, -, rfl⟩ := h
  refine List.mem_flatMap.2 ⟨r, hr, ?_⟩
  rw [refPlace, hx, Option.any_some, if_pos hm.refers]
  exact List.mem_singleton.2 rfl

/-- A fault of a variable has the place of the variable. -/
theorem location_misdeclared_var {v : Variable} (hx : p.arena.decl? d = some (.varDecl v)) {sp : Spot} {e : BindError}
    (h : p.arena.Misdeclared names Γ d sp e) : e.location = v.location := by
  rcases (misdeclared_var hx).1 h with ⟨_, _, _, _, _, rfl⟩ | ⟨_, _, rfl⟩
  · rfl
  · rfl

theorem orders_varDecl (hp : p.Placed) (hk : k ≤ maxNesting) (hr : p.Region Γ (ds ++ d :: ds') body)
    (hd : p.arena.DeclAt k (n + 1) s d t) {v : Variable} (hx : p.arena.decl? d = some (.varDecl v))
    (hL : Rises (v.location :: p.arena.refPlaces v.init)) : ∃ P,
    Orders (Stands p (Γ.bind p.arena ds)) (decl p.arena names (n + 1) d) P (v.location :: p.arena.refPlaces v.init)
      (p.Inverts names (Γ.bind p.arena ds) d) := by
  have hf := fits_of_region hp hr rfl
  have hinit := tells_whole names hp.postordered hk hf (hd.var hx)
  have hown := tells_declareVar names hf hx
  have hall := (orders_whole names hp.postordered hk hf (hd.var hx) (hL.sublist (List.sublist_cons_self _ _))).cross
    (orders_at hown fun _ _ => location_misdeclared_var hx) hinit hown
  refine ⟨_, hall.congr (fun b _ => by rw [decl_var hx]) (by simp) fun e e' => ?_⟩
  rw [Program.inverts_var hx]
  refine ⟨fun ⟨⟨sp, hsp⟩, sp', hsp'⟩ => .inr ⟨⟨sp, hsp⟩, ⟨sp', hsp'⟩, ?_⟩, ?_⟩
  · have he := location_whole hsp
    have he' := location_misdeclared_var hx hsp'
    obtain ⟨l, hl⟩ := hL.mem (.tail _ he)
    obtain ⟨l', hl'⟩ := hL.mem List.mem_cons_self
    exact ⟨l', l, he'.trans hl', hl, Rises.ahead (L := [v.location]) hL (by rw [hl']; exact .head _) (hl ▸ he)⟩
  · rintro ((h | h) | ⟨h, h', -⟩)
    · exact h.elim
    · exact h.elim
    · exact ⟨h, h'⟩

theorem orders_funDecl (hp : p.Placed) (hk : k ≤ maxNesting) (h : OrdersDecls p names k n)
    (hr : p.Region Γ (ds ++ d :: ds') body) (hd : p.arena.DeclAt k (n + 1) s d t) {f : Function}
    (hx : p.arena.decl? d = some (.funDecl f)) (hL : Rises (p.arena.functionPlaces (p.arena.places n) f)) : ∃ P,
    Orders (Stands p (Γ.bind p.arena ds)) (decl p.arena names (n + 1) d) P (p.arena.functionPlaces (p.arena.places n) f)
      (p.Inverts names (Γ.bind p.arena ds) d) := by
  have hf := fits_of_region hp hr rfl
  have htype : Orders (Stands p (Γ.bind p.arena ds)) _ _ [f.location] _ :=
    orders_at (tells_checkType names (.decl d) f.location f.arrowType fun b hb c => Stands.knowsClass hb hf)
      fun _ _ ⟨_, _, _, _, _, h⟩ => congrArg BindError.location h
  have hfun : Orders (Stands p (Γ.bind p.arena ds)) _ _ _ _ := orders_function hp hk h hf.rooted.ne_nil
    (Program.Region.function hr hx) (hd.function hx) (passed_enter _ hf.rooted.ne_nil _) ?_ hL
  · refine ⟨_, (htype.seq hfun hL.upward_head).congr (fun b _ => ?_) ?_ fun e e' => ?_⟩
    · rw [decl_function hx]
      simp only [enterFunDecl, bind_run, checkType_run, pure_run]
    · simp [functionPlaces]
    · rw [Program.inverts_fun hx, false_or]
  · simp only [Context.class?, List.map_cons, Context.map_kind_declareAll]
    rfl

variable (p n) in
/-- The places of the types of its members are places of a class. -/
theorem shape_sublist (c : Class) : (c.fields.map (·.location) ++ c.methods.map (·.location)).Sublist
    (c.location :: (c.fields.map (·.location) ++ c.methods.flatMap (p.arena.functionPlaces (p.arena.places n)))) := by
  refine ((List.Sublist.refl _).append ?_).cons _
  induction c.methods with
  | nil => exact List.Sublist.refl _
  | cons m ms ih =>
    rw [List.map_cons, List.flatMap_cons]
    exact (ih.trans (List.sublist_append_right _ _)).cons_cons _

variable (names) in
theorem orders_beginClass {c : Class} (hk : ∀ b, Exact p.arena Γ done (some c.name) b → ∀ name,
      b.knowsClass name = true ↔ Context.KnowsClass (⟨.cls c.name, []⟩ :: Γ) name)
    (hL : Rises (c.fields.map (·.location) ++ c.methods.map (·.location))) :
    Orders (Exact p.arena Γ done none) (beginClass names c) (Exact p.arena Γ done (some c.name))
      (c.fields.map (·.location) ++ c.methods.map (·.location)) fun _ _ => False := by
  have hcurrent : Tells (Exact p.arena Γ done none) (modify fun b => { b with currentClass := some c.name })
      (Exact p.arena Γ done (some c.name)) fun _ _ => False :=
    tells_quiet fun b hb => ⟨⟨hb.scopes, rfl, hb.classes⟩, rfl⟩
  have htype (place : Option Location) (ty : Ty) : Orders (Exact p.arena Γ done (some c.name))
      (do let _ ← checkType names place ty) (Exact p.arena Γ done (some c.name)) [place] fun _ _ => False :=
    orders_at (tells_checkType names (.decl ⟨0⟩) place ty hk) fun _ _ ⟨_, _, _, _, _, h⟩ => congrArg BindError.location h
  have hupward := hL.upward
  rw [List.map_eq_flatMap, List.map_eq_flatMap] at hL
  have hfields : Orders (Exact p.arena Γ done (some c.name)) (c.fields.forM _) _ _ _ :=
    orders_forM (Q := fun _ => Exact p.arena Γ done (some c.name)) (hL.sublist (List.sublist_append_left _ _))
      fun _ x _ _ => htype x.location x.ty
  have hmethods : Orders (Exact p.arena Γ done (some c.name)) (c.methods.forM _) _ _ _ :=
    orders_forM (Q := fun _ => Exact p.arena Γ done (some c.name)) (hL.sublist (List.sublist_append_right _ _))
      fun _ m _ _ => htype m.location m.arrowType
  rw [← List.map_eq_flatMap] at hfields hmethods
  refine ((hfields.seq hmethods hupward).congr (fun b _ => classShape_run c b) (fun _ => id) ?_).after hcurrent
  simp

variable (names) in
theorem orders_openClass (hne : Γ ≠ []) (c : Class) (hL : Rises (c.location :: c.fields.map (·.location))) :
    Orders (Exact p.arena Γ done (some c.name)) (openClass names c)
      (Exact p.arena (c.block [] :: Γ.declareAll [c.declared]) done (some c.name))
      (c.location :: c.fields.map (·.location)) fun _ _ => False := by
  have hname : Orders (Exact p.arena Γ done (some c.name)) _ _ _ _ := orders_declare names hne c.declared c.location
  have hfields : Orders (Exact p.arena (⟨.cls c.name, []⟩ :: Γ.declareAll [c.declared]) done (some c.name)) _ _ _ _ :=
    orders_members names (List.cons_ne_nil _ _) .field c.fields (hL.sublist (List.sublist_cons_self _ _))
  rw [Class.block_nil]
  refine (hname.seq (hfields.after (tells_push (.cls c.name))) ?_).congr (fun b _ => rfl) (fun _ => id) (by simp)
  exact Rises.upward (L := [c.location]) hL

variable (names) in
theorem orders_methods (hp : p.Placed) (hk : k ≤ maxNesting) (h : OrdersDecls p names k n) {c : Class}
    (hr : ∀ ms m ms', c.methods = ms ++ m :: ms' → p.Region (m.block :: c.block (ms ++ [m]) :: Γ) m.locals m.body)
    (hrow : Row (p.arena.FunctionAt k (p.arena.DeclAt k n)) s c.methods t)
    (hdone : ∀ ms m, p.passed (Function.block m :: c.block ms :: Γ) = done)
    (hcls : ∀ ms m, Context.class? (Function.block m :: c.block ms :: Γ) = some c.name)
    (hL : Rises (c.methods.flatMap (p.arena.functionPlaces (p.arena.places n)))) :
    Orders (Exact p.arena (c.block [] :: Γ) done (some c.name)) (methods p.arena names n c.methods)
      (Exact p.arena (c.block c.methods :: Γ) done (some c.name))
      (c.methods.flatMap (p.arena.functionPlaces (p.arena.places n)))
      fun e e' => ∃ ms m ms', c.methods = ms ++ m :: ms' ∧
        p.InvertsIn names (m.block :: c.block (ms ++ [m]) :: Γ) m.locals e e' := by
  refine orders_forM (Q := fun ms => Exact p.arena (c.block ms :: Γ) done (some c.name)) hL fun ms m ms' hms => ?_
  have hbehind : Context.declareAll (c.block ms :: Γ) [m.declared .method] = c.block (ms ++ [m]) :: Γ := by
    rw [Class.block_append]
    rfl
  obtain ⟨s', t', hat⟩ := hrow.imp_mem (x := m) (by simp [hms])
  have hrises : Rises (p.arena.functionPlaces (p.arena.places n) m) := by
    refine hL.sublist ?_
    rw [hms, List.flatMap_append, List.flatMap_cons]
    exact (List.sublist_append_left _ _).trans (List.sublist_append_right _ _)
  have hone : Orders (Exact p.arena (c.block ms :: Γ) done (some c.name))
      (do enterFunction names m .method; region p.arena names n m.locals m.body; leave) _ _ _ :=
    orders_function hp hk h (List.cons_ne_nil _ _) (by rw [hbehind]; exact hr ms m ms' hms) hat
      (by rw [hbehind]; exact hdone _ m) (by rw [hbehind]; exact hcls _ m) hrises
  rw [hbehind] at hone
  exact hone.congr (fun b _ => function_run p.arena m .method b) (fun _ => id) fun _ _ => Iff.rfl

theorem orders_classDecl (hp : p.Placed) (hk : k ≤ maxNesting) (h : OrdersDecls p names k n)
    (hr : p.Region Γ (ds ++ d :: ds') body) (hd : p.arena.DeclAt k (n + 1) s d t) {c : Class}
    (hx : p.arena.decl? d = some (.classDecl c)) (hdepth : Γ.depth = 0) (hL : Rises (c.location ::
      (c.fields.map (·.location) ++ c.methods.flatMap (p.arena.functionPlaces (p.arena.places n))))) : ∃ P,
    Orders (Stands p (Γ.bind p.arena ds)) (decl p.arena names (n + 1) d) P
      (c.location :: (c.fields.map (·.location) ++ c.methods.flatMap (p.arena.functionPlaces (p.arena.places n))))
      (p.Inverts names (Γ.bind p.arena ds) d) := by
  obtain ⟨declared, hrun, hbegin, hleave, hinside⟩ :=
    tells_classParts names hp hk (tells_decl hp hk n) hr hd hx hdepth
  have hf := fits_of_region hp hr rfl
  have hne := hf.rooted.ne_nil
  have hdepth' : (Γ.bind p.arena ds).depth = 0 := by rwa [Context.depth_bind]
  have hmembers : Rises ((c.location :: c.fields.map (·.location)) ++
    c.methods.flatMap (p.arena.functionPlaces (p.arena.places n))) := hL
  obtain ⟨rfl, hpassed, -⟩ := region_outermost hp hr hdepth
  have hbefore : Stands p (Context.bind [⟨.global, []⟩] p.arena ds) =
      Exact p.arena (Context.bind [⟨.global, []⟩] p.arena ds) ds none := by rw [Stands, hpassed]; rfl
  have hshape := orders_beginClass names (fun b hb => knowsClass_inside hf hpassed rfl hb) (hL.sublist (shape_sublist p n c))
  have hopen : Orders (Exact p.arena _ ds (some c.name)) _ _ _ _ :=
    orders_openClass names hne c (hmembers.sublist (List.sublist_append_left _ _))
  have hmethods := orders_methods names hp hk h (fun ms m ms' hms => Program.Region.method hr hx hdepth hms)
    (hd.methods hx) (fun ms m => passed_method hne hpassed c ms m) (fun ms m => rfl)
    (hmembers.sublist (List.sublist_append_right _ _))
  have hbody := hopen.seq (hmethods.before hleave) hmembers.upward
  rw [hbefore] at hbegin hrun ⊢
  refine ⟨_, (hshape.cross hbody hbegin hinside).congr hrun (fun place hplace => ?_) fun e e' => ?_⟩
  · rcases List.mem_append.1 hplace with hplace | hplace
    · exact (shape_sublist p n c).subset hplace
    · exact hplace
  · rw [Program.inverts_class hx hdepth', false_or, false_or]

variable (names n) in
theorem orders_misplaced (hp : p.Placed) (hr : p.Region Γ (ds ++ d :: ds') body) {c : Class}
    (hx : p.arena.decl? d = some (.classDecl c)) (hdepth : Γ.depth ≠ 0) : ∃ P,
    Orders (Stands p (Γ.bind p.arena ds)) (decl p.arena names (n + 1) d) P [c.location]
      (p.Inverts names (Γ.bind p.arena ds) d) := by
  have hdepth' : (Γ.bind p.arena ds).depth ≠ 0 := by rwa [Context.depth_bind]
  refine ⟨_, (orders_at (tells_misplaced hp hr hx hdepth) fun sp e he => ?_).congr (fun _ _ => rfl) (fun _ => id)
    fun e e' => iff_false_intro (Program.not_inverts_misplaced hx hdepth')⟩
  obtain ⟨-, rfl⟩ := (Program.ofDecl_misplaced hx hdepth').1 he
  rfl

/-- **Binding a declaration has the inversions of the declaration.** -/
theorem orders_decl (hp : p.Placed) (hk : k ≤ maxNesting) (n : Nat) : OrdersDecls p names k n := by
  induction n with
  | zero => intro _ _ _ _ _ _ _ _ hd; exact hd.elim
  | succ n ih =>
    intro Γ ds ds' d body s t hr hd hL
    -- The state behind a declaration is known already.
    suffices ∃ P, Orders (Stands p (Γ.bind p.arena ds)) (decl p.arena names (n + 1) d) P (p.arena.places (n + 1) d)
        (p.Inverts names (Γ.bind p.arena ds) d) by
      obtain ⟨P, h⟩ := this
      exact h.leads (tells_decl hp hk (n + 1) hr hd)
    obtain ⟨x, hx⟩ := hd.exists_decl?
    rw [places, hx] at hL ⊢
    cases x with
    | varDecl v => exact orders_varDecl hp hk hr hd hx hL
    | funDecl f => exact orders_funDecl hp hk ih hr hd hx hL
    | classDecl c =>
      by_cases hdepth : Γ.depth = 0
      · exact orders_classDecl hp hk ih hr hd hx hdepth hL
      · obtain ⟨P, h⟩ := orders_misplaced names n hp hr hx hdepth
        exact ⟨P, h.congr (fun _ _ => rfl) (by simp) fun _ _ => Iff.rfl⟩

end Binder

/-! ## Programs -/

/-- **The order in which the faults of a program are reported.** The places of the errors do not decrease just if no
declaration has faults of which the second one reported stands in front of the first. Two errors that are out of order
are always such faults. The text is one whose places 32 bits can count. -/
theorem bind_order {text : String} {names names' : Names} {p : Program} (h : Program.parse text names = (.ok p, names'))
    (hbytes : Position.bytes text.toList + 1 < UInt32.size) (ns : Names) :
    ((p.bind ns).errors.Pairwise BindError.InOrder ↔ ∀ e e', ¬p.InvertsIn ns [⟨.global, []⟩] p.declarations e e') ∧
    ∀ e e', p.InvertsIn ns [⟨.global, []⟩] p.declarations e e' ↔ [e, e'].Sublist (p.bind ns).errors ∧ e'.Ahead e := by
  have hp := placed_of_parse h
  have hL := rises_of_parse h hbytes
  obtain ⟨q, hrow, hfill⟩ := hp.row
  have horders : Binder.Orders _ (Binder.region p.arena ns _ _ _) _ _ _ :=
    Binder.orders_region hp Binder.nestingBound_le (Binder.orders_decl hp Binder.nestingBound_le _) .main hrow hfill hL
  obtain ⟨-, es, herr, hes⟩ := horders _ (Binder.stands_start p)
  obtain rfl : (p.bind ns).errors = es := herr
  refine ⟨?_, hes.pairs⟩
  simp only [List.pairwise_iff_forall_sublist, hes.pairs, not_and]
  have hinOrder {e e' : BindError} (hsub : [e, e'].Sublist (p.bind ns).errors) : e.InOrder e' ↔ ¬e'.Ahead e :=
    hL.inOrder_iff (hes.located e (hsub.subset (.head _))) (hes.located e' (hsub.subset (.tail _ (.head _))))
  exact ⟨fun hall e e' hsub => (hinOrder hsub).1 (hall hsub), fun hnone e e' hsub => (hinOrder hsub).2 (hnone e e' hsub)⟩

/-- The tree of `let var x:D = y; in 0;`. -/
def faultyVariable : Program where
  arena := ⟨#[⟨.name ⟨2⟩, some ⟨1, 15, 14⟩⟩, ⟨.int 0, some ⟨1, 21, 20⟩⟩],
    #[.varDecl ⟨⟨0⟩, .object ⟨1⟩, ⟨0⟩, some ⟨1, 5, 4⟩⟩]⟩
  declarations := [⟨0⟩]
  body := ⟨1⟩

theorem parse_faultyVariable : Program.parse "let var x:D = y; in 0;" .empty =
    (.ok faultyVariable, ⟨#["x", "D", "y"]⟩) := by
  decide +kernel

/-- The fault of the initial value is reported first, and so the errors are not in order. -/
theorem bind_order_faultyVariable :
    (faultyVariable.bind ⟨#["x", "D", "y"]⟩).errors = [⟨.unresolvedIdentifier "y", some ⟨1, 15, 14⟩⟩,
      ⟨.unknownClass "D", some ⟨1, 5, 4⟩⟩] ∧
    ¬(faultyVariable.bind ⟨#["x", "D", "y"]⟩).errors.Pairwise BindError.InOrder := by
  obtain ⟨hsorted, hpairs⟩ := bind_order parse_faultyVariable (by decide) ⟨#["x", "D", "y"]⟩
  have herr : (faultyVariable.bind ⟨#["x", "D", "y"]⟩).errors = [⟨.unresolvedIdentifier "y", some ⟨1, 15, 14⟩⟩,
      ⟨.unknownClass "D", some ⟨1, 5, 4⟩⟩] := by decide +kernel
  refine ⟨herr, fun h => ?_⟩
  rw [hsorted] at h
  refine h ⟨.unresolvedIdentifier "y", some ⟨1, 15, 14⟩⟩ ⟨.unknownClass "D", some ⟨1, 5, 4⟩⟩ ((hpairs _ _).2 ⟨?_, ?_⟩)
  · rw [herr]
  · exact ⟨⟨1, 5, 4⟩, ⟨1, 15, 14⟩, rfl, rfl, by decide, by decide⟩

end Fool
