import Fool.Proofs.Binding.Effects
import Fool.Proofs.Binding.Faults

/-!
# Which faults the steps of binding report

`Tells P m P' F` says that the step `m` leads from a state with `P` to one with `P'`, and that what it reports is just
the faults in `F`, one for each spot. Steps that report the faults of different spots can follow one another
(`Tells.seq`, `tells_forM`). `Exact` says all that a state knows at a place.
-/

namespace Fool

/-- Faults, each with the spot that has it. -/
abbrev Faults := Spot → BindError → Prop

/-- An element of a list with one more is one of the list, or that one. -/
theorem exists_split_concat {α : Type} {xs : List α} {x : α} {G : List α → α → Prop} :
    (∃ before y after, xs ++ [x] = before ++ y :: after ∧ G before y) ↔
      (∃ before y after, xs = before ++ y :: after ∧ G before y) ∨ G xs x := by
  constructor
  · rintro ⟨before, y, after, heq, hy⟩
    rcases List.eq_nil_or_concat after with rfl | ⟨after, z, rfl⟩
    · obtain ⟨rfl, hx⟩ := List.append_inj' heq rfl
      cases hx
      exact .inr hy
    · rw [List.concat_eq_append, ← List.cons_append, ← List.append_assoc] at heq
      obtain ⟨rfl, -⟩ := List.append_inj' heq rfl
      exact .inl ⟨before, y, after, rfl, hy⟩
  · rintro (⟨before, y, after, rfl, hy⟩ | hx)
    · exact ⟨before, y, after ++ [x], by simp, hy⟩
    · exact ⟨xs, x, [], rfl, hx⟩

namespace Faults

/-- No spot has faults of both. -/
def Apart (F F' : Faults) : Prop := ∀ s e e', F s e → ¬F' s e'

/-- The faults of the elements of a list, each seen with the elements before it. -/
def eachOf {α : Type} (xs : List α) (F : List α → α → Faults) : Faults := fun s e =>
  ∃ before x after, xs = before ++ x :: after ∧ F before x s e

theorem eachOf_concat {α : Type} {xs : List α} {x : α} {F : List α → α → Faults} {s : Spot} {e : BindError} :
    eachOf (xs ++ [x]) F s e ↔ eachOf xs F s e ∨ F xs x s e := exists_split_concat

/-- The faults of names that are taken. -/
def duplicate (names : Names) (x : Named) (Γ : Context) (D : Declared) (place : Option Location) : Faults := fun s e =>
  Γ.Has D.name ∧ s = .name x ∧ e = ⟨.duplicateDeclaration (names.text D.name), place⟩

/-- The faults of a type: its classes that are not known. -/
def unknown (names : Names) (x : Named) (Γ : Context) (ty : CheckedType) (place : Option Location) : Faults := fun s e =>
  ∃ i cls, ty.classes[i]? = some cls ∧ ¬Γ.KnowsClass cls ∧ s = .mention x i ∧ e = ⟨.unknownClass (names.text cls), place⟩

/-- The faults of the name of a function and of those of its parameters. -/
def head (names : Names) (x : Named) (param : Nat → Named) (Γ : Context) (f : Function) (kind : EntryKind) : Faults :=
  fun s e => duplicate names x Γ (f.declared kind) f.location s e ∨
    eachOf f.params (fun before y => duplicate names (param before.length)
      (⟨.function, Declared.members .param before⟩ :: Γ.declareAll [f.declared kind])
      ⟨y.name, .param, y.ty.checked⟩ y.location) s e

end Faults

namespace Binder

variable {F F' : Faults}

/-! ## Lists of faults -/

/-- The list holds just these faults, and no spot twice. -/
structure Lists (fs : List (Spot × BindError)) (F : Faults) : Prop where
  once : (fs.map Prod.fst).Nodup
  mem : ∀ s e, (s, e) ∈ fs ↔ F s e

theorem Lists.congr {fs : List (Spot × BindError)} (h : Lists fs F) (hF : ∀ s e, F' s e ↔ F s e) : Lists fs F' :=
  ⟨h.once, fun s e => (h.mem s e).trans (hF s e).symm⟩

theorem lists_nil (h : ∀ s e, ¬F s e) : Lists [] F := ⟨List.nodup_nil, fun s e => by simpa using h s e⟩

theorem lists_singleton (s : Spot) (e : BindError) : Lists [(s, e)] fun s' e' => s' = s ∧ e' = e :=
  ⟨by simp, by simp⟩

theorem Lists.append {fs fs' : List (Spot × BindError)} (h : Lists fs F) (h' : Lists fs' F') (ha : F.Apart F') :
    Lists (fs ++ fs') fun s e => F s e ∨ F' s e := by
  refine ⟨?_, fun s e => by rw [List.mem_append, h.mem, h'.mem]⟩
  rw [List.map_append, List.nodup_append]
  refine ⟨h.once, h'.once, ?_⟩
  rintro s hs s' hs' rfl
  obtain ⟨q, hq, rfl⟩ := List.mem_map.1 hs
  obtain ⟨q', hq', heq⟩ := List.mem_map.1 hs'
  exact ha q.1 q.2 q'.2 ((h.mem _ _).1 hq) (heq ▸ (h'.mem _ _).1 hq')

/-! ## What a step reports -/

/-- From a state with `P` the step leads to one with `P'`, and it reports the faults in `F`. -/
def Tells (P : Binder → Prop) (m : BindM Unit) (P' : Binder → Prop) (F : Faults) : Prop :=
  ∀ b, P b → P' (m b).2 ∧ ∃ fs, Lists fs F ∧ (m b).2.errors = b.errors ++ fs.map Prod.snd

variable {P P' P'' : Binder → Prop} {m m' : BindM Unit}

theorem Tells.congr (h : Tells P m P' F) (hm : ∀ b, P b → (m' b).2 = (m b).2) (hF : ∀ s e, F' s e ↔ F s e) :
    Tells P m' P' F' := by
  intro b hb
  rw [hm b hb]
  obtain ⟨hpost, fs, hfs, herr⟩ := h b hb
  exact ⟨hpost, fs, hfs.congr hF, herr⟩

theorem Tells.same (h : Tells P m P' F) (hF : ∀ s e, F' s e ↔ F s e) : Tells P m P' F' := h.congr (fun _ _ => rfl) hF

theorem Tells.imp (h : Tells P m P' F) (hP : ∀ b, P' b → P'' b) : Tells P m P'' F := fun b hb =>
  ⟨hP _ (h b hb).1, (h b hb).2⟩

theorem Tells.seq (h : Tells P m P' F) (h' : Tells P' m' P'' F') (ha : F.Apart F') :
    Tells P (do m; m') P'' fun s e => F s e ∨ F' s e := by
  intro b hb
  obtain ⟨hpost, fs, hfs, herr⟩ := h b hb
  obtain ⟨hpost', fs', hfs', herr'⟩ := h' _ hpost
  refine ⟨hpost', fs ++ fs', hfs.append hfs' ha, ?_⟩
  rw [bind_run, herr', herr, List.map_append, List.append_assoc]

/-- A step that reports nothing. -/
theorem tells_quiet (h : ∀ b, P b → P' (m b).2 ∧ (m b).2.errors = b.errors) : Tells P m P' fun _ _ => False := fun b hb =>
  ⟨(h b hb).1, [], lists_nil fun _ _ => id, by simpa using (h b hb).2⟩

/-- A quiet step in front. -/
theorem Tells.after (h : Tells P' m' P'' F) (hm : Tells P m P' fun _ _ => False) : Tells P (do m; m') P'' F :=
  (hm.seq h fun _ _ _ => False.elim).same fun _ _ => (false_or _).symm.to_iff

/-- A quiet step behind. -/
theorem Tells.before (h : Tells P m P' F) (hm : Tells P' m' P'' fun _ _ => False) : Tells P (do m; m') P'' F :=
  (h.seq hm fun _ _ _ _ => id).same fun _ _ => (or_false _).symm.to_iff

/-- Steps for the elements of a list report the faults of the elements, if each spot belongs to one of them. -/
theorem tells_forM {α : Type} {Q : List α → Binder → Prop} {f : α → BindM Unit} {G : List α → α → Faults} {xs : List α}
    (h : ∀ before x after, xs = before ++ x :: after → Tells (Q before) (f x) (Q (before ++ [x])) (G before x))
    (hG : ∀ before x after before' x' after' s e e', xs = before ++ x :: after → xs = before' ++ x' :: after' →
      G before x s e → G before' x' s e' → before.length = before'.length) :
    Tells (Q []) (xs.forM f) (Q xs) (Faults.eachOf xs G) := by
  suffices hall : ∀ ys zs, xs = ys ++ zs → Tells (Q []) (ys.forM f) (Q ys) (Faults.eachOf ys G) from
    hall xs [] (List.append_nil xs).symm
  intro ys
  induction ys using List.reverseRecOn with
  | nil =>
    intro zs _
    have hnone : Tells (Q []) (pure ()) (Q []) fun _ _ => False := tells_quiet fun b hb => ⟨hb, rfl⟩
    exact hnone.congr (fun _ _ => rfl) fun s e => by simp [Faults.eachOf]
  | append_singleton ys x ih =>
    intro zs hxs
    rw [List.append_assoc, List.singleton_append] at hxs
    have hfront := ih (x :: zs) hxs
    have hlast := h ys x zs hxs
    refine (hfront.seq hlast ?_).congr (fun b _ => by simp) fun s e => Faults.eachOf_concat
    rintro s e e' ⟨before, x', after, rfl, hx'⟩ hx
    have heq : xs = before ++ x' :: (after ++ x :: zs) := by simpa using hxs
    have := hG _ _ _ _ _ _ s e e' heq hxs hx' hx
    simp at this

/-! ## All that a state knows -/

/-- At a place the state has the names in scope, the class that is being read, and just the classes that come first
with their name among the global declarations that have been read. -/
structure Exact (a : Arena) (Γ : Context) (done : List DeclRef) (cls : Option Symbol) (b : Binder) : Prop where
  scopes : b.scopes = Γ.scopes
  current : b.currentClass = cls
  classes : ∀ name info, b.classes.get? name = some info ↔
    ∃ c, a.FirstClass done name c ∧ info = ⟨c.shape, (c.block c.methods).scope 1⟩

variable {a : Arena} {Γ Γ' : Context} {done : List DeclRef} {cls : Option Symbol} {names : Names}

theorem Exact.to {b b' : Binder} (h : Exact a Γ done cls b) (hs : b'.scopes = Γ'.scopes)
    (hc : b'.currentClass = b.currentClass) (hk : b'.classes = b.classes) : Exact a Γ' done cls b' :=
  ⟨hs, hc.trans h.current, by rw [hk]; exact h.classes⟩

variable (names) in
/-- A declaration reports its name if that is taken. -/
theorem tells_declare (hne : Γ ≠ []) (x : Named) (D : Declared) (place : Option Location) :
    Tells (Exact a Γ done cls) (do let _ ← declare names D.name D.ty D.kind place) (Exact a (Γ.declareAll [D]) done cls)
      (Faults.duplicate names x Γ D place) := by
  intro b hb
  by_cases hD : Γ.Has D.name
  · rw [bind_run, declare_run_taken names hb.scopes hD place]
    exact ⟨hb.to rfl rfl rfl, _, (lists_singleton _ _).congr fun s e => and_iff_right hD, rfl⟩
  · rw [bind_run, declare_run_free names hb.scopes hne hD place]
    exact ⟨hb.to rfl rfl rfl, [], lists_nil fun s e h => hD h.1, by simp⟩

variable (names) in
/-- Looking up a type reports its unknown classes. -/
theorem tells_checkType (x : Named) (place : Option Location) (ty : Ty)
    (hk : ∀ b, Exact a Γ done cls b → ∀ c, b.knowsClass c = true ↔ Γ'.KnowsClass c) :
    Tells (Exact a Γ done cls) (do let _ ← checkType names place ty) (Exact a Γ done cls)
      (Faults.unknown names x Γ' ty.checked place) := by
  intro b hb
  rw [bind_run, checkType_run]
  refine ⟨hb.to hb.scopes rfl rfl, (ty.checked.classes.zipIdx.filter fun q => !b.knowsClass q.1).map
    fun q => (.mention x q.2, ⟨.unknownClass (names.text q.1), place⟩), ⟨?_, fun s e => ?_⟩, ?_⟩
  · rw [List.map_map]
    have hidx : (ty.checked.classes.zipIdx.map Prod.snd).Nodup := by
      rw [List.zipIdx_map_snd]
      exact List.nodup_range'
    have hsub : ((ty.checked.classes.zipIdx.filter fun q => !b.knowsClass q.1).map Prod.snd).Nodup :=
      hidx.sublist (List.filter_sublist.map _)
    have hmap := hsub.map (f := Spot.mention x) fun i j h => by injection h
    rwa [List.map_map] at hmap
  · simp only [List.mem_map, List.mem_filter, Prod.exists, Faults.unknown, List.mem_zipIdx_iff_getElem?, Bool.not_eq_true',
      Prod.mk.injEq]
    constructor
    · rintro ⟨c, i, ⟨hi, hc⟩, rfl, rfl⟩
      exact ⟨i, c, hi, fun h => by simp [(hk b hb c).2 h] at hc, rfl, rfl⟩
    · rintro ⟨i, c, hi, hc, rfl, rfl⟩
      exact ⟨c, i, ⟨hi, Bool.eq_false_iff.2 fun h => hc ((hk b hb c).1 h)⟩, rfl, rfl⟩
  · dsimp only
    conv_lhs => rw [← List.zipIdx_map_fst 0 ty.checked.classes, unknowns, List.filter_map, List.map_map]
    rw [List.map_map]
    rfl

variable (names) in
/-- A parameter or a field is declared. -/
def declareMember (kind : EntryKind) (y : TypedName) : BindM Unit := do
  let _ ← declare names y.name y.ty.checked kind y.location

theorem declareAll_eq (kind : EntryKind) (xs : List TypedName) :
    declareAll names kind xs (xs.map fun y => y.ty.checked) = xs.forM (declareMember names kind) := by
  rw [declareAll, ← List.map_prod_left_eq_zip, List.forM_eq_forM, List.forM_map]
  rfl

variable (names) in
theorem tells_member (hne : Γ ≠ []) (kind : EntryKind) (x : Named) (before : List TypedName) (y : TypedName) :
    Tells (Exact a (Γ.declareAll (Declared.members kind before)) done cls) (declareMember names kind y)
      (Exact a (Γ.declareAll (Declared.members kind (before ++ [y]))) done cls)
      (Faults.duplicate names x (Γ.declareAll (Declared.members kind before)) ⟨y.name, kind, y.ty.checked⟩ y.location) := by
  have hone : Tells (Exact a _ done cls) _ _ _ := tells_declare names
    (Context.declareAll_ne_nil (Declared.members kind before) hne) x ⟨y.name, kind, y.ty.checked⟩ y.location
  have hmembers : Declared.members kind (before ++ [y]) =
      Declared.members kind before ++ [⟨y.name, kind, y.ty.checked⟩] := List.map_append
  rw [← Context.declareAll_append, ← hmembers] at hone
  exact hone

variable (names) in
/-- Members are declared one after the other. -/
theorem tells_members (hne : Γ ≠ []) (kind : EntryKind) (xs : List TypedName) {x : Nat → Named} (hx : Function.Injective x) :
    Tells (Exact a Γ done cls) (declareAll names kind xs (xs.map fun y => y.ty.checked))
      (Exact a (Γ.declareAll (Declared.members kind xs)) done cls)
      (Faults.eachOf xs fun before y => Faults.duplicate names (x before.length)
        (Γ.declareAll (Declared.members kind before)) ⟨y.name, kind, y.ty.checked⟩ y.location) := by
  have hall : Tells _ (xs.forM (declareMember names kind)) _ _ := tells_forM
    (Q := fun before => Exact a (Γ.declareAll (Declared.members kind before)) done cls)
    (fun before y _ _ => tells_member names hne kind (x before.length) before y) ?_
  · rw [Declared.members, List.map_nil, Context.declareAll_nil] at hall
    rwa [declareAll_eq]
  · rintro before y after before' y' after' s e e' - - ⟨-, rfl, -⟩ ⟨-, heq, -⟩
    injection heq with heq
    exact hx heq

/-! ## Entering and leaving -/

theorem tells_push (kind : ScopeKind) :
    Tells (Exact a Γ done cls) (modify fun b => { b with scopes := b.scopes.push (.empty kind) })
      (Exact a (⟨kind, []⟩ :: Γ) done cls) fun _ _ => False := by
  refine tells_quiet fun b hb => ⟨hb.to ?_ rfl rfl, rfl⟩
  rw [modify_run, hb.scopes, Context.push_empty]

theorem tells_leave (blk : Block) :
    Tells (Exact a (blk :: Γ) done cls) leave (Exact a Γ done cls) fun _ _ => False := by
  refine tells_quiet fun b hb => ⟨hb.to ?_ rfl rfl, rfl⟩
  show b.scopes.pop = Γ.scopes
  rw [hb.scopes, Context.pop_scopes]

variable (names) in
/-- Entering a function reports its name and its parameters, if they are taken. -/
theorem tells_enterFunction (hne : Γ ≠ []) {x : Named} {param : Nat → Named} (hparam : Function.Injective param)
    (hx : ∀ i, param i ≠ x) (f : Function) (kind : EntryKind) :
    Tells (Exact a Γ done cls) (enterFunction names f kind)
      (Exact a (f.block :: Γ.declareAll [f.declared kind]) done cls) (Faults.head names x param Γ f kind) := by
  have hname : Tells (Exact a Γ done cls) _ _ _ := tells_declare names hne x (f.declared kind) f.location
  have hparams : Tells (Exact a (⟨.function, []⟩ :: Γ.declareAll [f.declared kind]) done cls) _ _ _ :=
    tells_members names (List.cons_ne_nil _ _) .param f.params hparam
  refine (hname.seq (hparams.after (tells_push .function)) ?_).congr (fun b _ => rfl) fun s e => Iff.rfl
  rintro s e e' ⟨-, rfl, -⟩ ⟨before, y, after, -, -, heq, -⟩
  injection heq with heq
  exact hx _ heq.symm

end Binder

end Fool
