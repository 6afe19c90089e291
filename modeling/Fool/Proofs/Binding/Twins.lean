import Fool.Proofs.Binding.Alongside
import Fool.Proofs.Parse.Differ

/-!
# What is written the same is bound the same

`Twin s s' n L L' m m'` says that the steps `m` and `m'` run alongside each other wherever they stand: they pass `n`
expressions, numbered from `s` in the one program and from `s'` in the other, and report at the places `L` and `L'`. Trees
that are alike are bound by twins (`twin_whole`, `twin_decl`).
-/

namespace Fool

namespace Binder

open Syntax

variable {R : ExprRef → ExprRef → Prop} {C : Comparison} {j s s' n i : Nat} {K K' L L' : List Location}
  {m m' k k' : BindM Unit}

/-- The expressions numbered from `s` are related to those numbered from `s'`, `n` of them. -/
def Pairs (R : ExprRef → ExprRef → Prop) (s s' n : Nat) : Prop := ∀ i < n, R ⟨s + i⟩ ⟨s' + i⟩

theorem Pairs.left (h : Pairs R s s' (n + i)) : Pairs R s s' n := fun x hx => h x (by omega)

theorem Pairs.right (h : Pairs R s s' (n + i)) : Pairs R (s + n) (s' + n) i := fun x hx => by
  rw [Nat.add_assoc, Nat.add_assoc]
  exact h (n + x) (by omega)

theorem Comparison.Covers.mono (h : C.Covers L L') (hK : K ⊆ L) (hK' : K' ⊆ L') : C.Covers K K' :=
  fun cause l hl l' hl' => h cause l (hK hl) l' (hK' hl')

theorem Comparison.Covers.one (h : C.Covers L L') {l l' : Location} (hl : l ∈ L) (hl' : l' ∈ L') : C.Covers [l] [l'] := by
  intro cause x hx x' hx'
  rw [List.mem_singleton.1 hx, List.mem_singleton.1 hx']
  exact h cause l hl l' hl'

/-- The steps run alongside each other, from whatever states, as far as the expressions numbered from `s` and from `s'` are
related and the faults at the places compare. -/
def Twin (s s' n : Nat) (L L' : List Location) (m m' : BindM Unit) : Prop :=
  ∀ ⦃R C⦄ (j : Nat), OneToOne R → Pairs R s s' n → C.Covers L L' → Alongside R C j m m' j

theorem twin_pure : Twin s s' 0 [] [] (pure ()) (pure ()) := fun _ _ _ _ _ _ => .pure ()

theorem Twin.seq (h : Twin s s' n L L' m m') (h' : Twin (s + n) (s' + n) i K K' k k') :
    Twin s s' (n + i) (L ++ K) (L' ++ K') (do m; k) (do m'; k') := fun _ _ j hR hp hC =>
  (h j hR hp.left (hC.mono (List.subset_append_left _ _) (List.subset_append_left _ _))).bind fun _ =>
    h' j hR hp.right (hC.mono (List.subset_append_right _ _) (List.subset_append_right _ _))

theorem Twin.mono (h : Twin s s' n L L' m m') (hL : L ⊆ K) (hL' : L' ⊆ K') : Twin s s' n K K' m m' :=
  fun _ _ j hR hp hC => h j hR hp (hC.mono hL hL')

theorem Twin.congr (h : Twin s s' n L L' m m') (hk : ∀ b, (k b).2 = (m b).2) (hk' : ∀ b, (k' b).2 = (m' b).2) :
    Twin s s' n L L' k k' := fun _ _ j hR hp hC => (h j hR hp hC).congr hk hk'

/-! ## Expressions -/

variable {a a' : Arena} {names : Names}

/-- Expressions of one form refer to the same. -/
theorem alongside_refer (hR : OneToOne R) {form : Form} {e e' : ExprRef} {x x' : Expr} {l l' : Location} (he : R e e')
    (hl : a.location? e = some l) (hl' : a'.location? e' = some l') (hC : form.refers = true → C.Covers [l] [l'])
    (hx : form.Fits names x) (hx' : form.Fits names x') :
    Alongside R C j (refer a names e x) (refer a' names e' x') j := by
  have hsame : ∀ {s s' : Symbol} {name : String}, names.find? name = some s → names.find? name = some s' → s' = s :=
    fun hs hs' => Option.some.inj (hs'.symm.trans hs)
  cases form with
  | name name =>
    cases x with
    | name s => cases x' with
      | name s' =>
        rw [hsame hx hx']
        exact alongside_resolveValue hR he hl hl' (hC rfl) s
      | _ => exact hx'.elim
    | _ => exact hx.elim
  | call name =>
    cases x with
    | call s args => cases x' with
      | call s' args' =>
        rw [hsame hx hx']
        exact (alongside_resolveName hR he hl hl' (hC rfl) s).bind fun _ => .pure _
      | _ => exact hx'.elim
    | _ => exact hx.elim
  | methodCall receiver method =>
    cases x with
    | methodCall s t args => cases x' with
      | methodCall s' t' args' =>
        rw [hsame hx.1 hx'.1, hsame hx.2 hx'.2]
        exact alongside_resolveMethod hR he hl hl' (hC rfl) s t
      | _ => exact hx'.elim
    | _ => exact hx.elim
  | new name =>
    cases x with
    | new s args => cases x' with
      | new s' args' =>
        rw [hsame hx hx']
        exact alongside_resolveNew hR he hl hl' (hC rfl) s
      | _ => exact hx'.elim
    | _ => exact hx.elim
  | _ => cases x <;> first | exact hx.elim | (cases x' <;> first | exact hx'.elim | exact .pure _)

mutual

theorem twin_tree (hpost : a.Postordered) (hpost' : a'.Postordered) : ∀ {t t' : Tree} {e e' : ExprRef}, t.Alike t' →
    t.Stands a names e → t'.Stands a' names e' →
    Twin (a.first e.index) (a'.first e'.index) t.count t.places t'.places (visitAll a names (a.walk e))
      (visitAll a' names (a'.walk e'))
  | .node form place parts, .node form' place' parts', e, e', ⟨hform, hparts⟩, ⟨x, hx, hf, hp⟩, ⟨x', hx', hf', hp'⟩ => by
    subst hform
    have hexpr : a.expr? e = some x := by rw [Arena.expr?, hx]; rfl
    have hexpr' : a'.expr? e' = some x' := by rw [Arena.expr?, hx']; rfl
    have hl : a.location? e = some place := by rw [Arena.location?, hx]; rfl
    have hl' : a'.location? e' = some place' := by rw [Arena.location?, hx']; rfl
    have htiles := hpost e x hexpr
    have htiles' := hpost' e' x' hexpr'
    have hbelow := twin_trees hpost hpost' hparts hp hp' htiles htiles'
    rw [visitAll_walk hpost hexpr, visitAll_walk hpost' hexpr']
    intro R C j hR hpairs hC
    -- Its parts come first, so the expression itself is the last of the tree.
    have he : R ⟨e.index⟩ ⟨e'.index⟩ := by
      rw [Tree.StandAll.end_eq hpost hp htiles, Tree.StandAll.end_eq hpost' hp' htiles', hparts.count_eq]
      exact hpairs _ (Nat.lt_succ_self _)
    refine (alongside_refer hR he hl hl' (fun hrefers => hC.mono ?_ ?_) hf hf').bind fun _ =>
      hbelow j hR hpairs.left (hC.mono (List.subset_append_right _ _) (List.subset_append_right _ _))
    · simp [Tree.places, hrefers]
    · simp [Tree.places, hrefers]

theorem twin_trees (hpost : a.Postordered) (hpost' : a'.Postordered) : ∀ {ts ts' : List Tree} {es es' : List ExprRef}
    {lo hi lo' hi' : Nat}, Tree.AllAlike ts ts' → Tree.StandAll a names ts es → Tree.StandAll a' names ts' es' →
    a.Tiles lo es hi → a'.Tiles lo' es' hi' →
    Twin lo lo' (Tree.countAll ts) (Tree.placesAll ts) (Tree.placesAll ts') (visitAll a names (es.flatMap a.walk))
      (visitAll a' names (es'.flatMap a'.walk))
  | [], [], [], [], _, _, _, _, _, _, _, _, _ => twin_pure
  | t :: ts, t' :: ts', e :: es, e' :: es', lo, hi, lo', hi', ⟨ht, hts⟩, ⟨he, hes⟩, ⟨he', hes'⟩, ⟨hfirst, _, hrest⟩,
    ⟨hfirst', _, hrest'⟩ => by
    rw [he.end_eq hpost, hfirst] at hrest
    rw [he'.end_eq hpost', hfirst', ht.count_eq] at hrest'
    have hhead := twin_tree hpost hpost' ht he he'
    rw [hfirst, hfirst'] at hhead
    simp only [List.flatMap_cons, visitAll_append]
    exact hhead.seq (twin_trees hpost hpost' hts hes hes' hrest hrest')

end

/-- Whole expressions that are alike are twins. -/
theorem twin_whole {d : Nat} (hpost : a.Postordered) (hpost' : a'.Postordered) (hd : d ≤ maxNesting) {t t' : Tree}
    {e e' : ExprRef} {p p' q q' : Pos} (ht : t.Alike t') (he : t.Stands a names e) (he' : t'.Stands a' names e')
    (hat : a.Fill d p [e] q) (hat' : a'.Fill d p' [e'] q') :
    Twin p.nodes p'.nodes t.count t.places t'.places (whole a names e) (whole a' names e') := by
  obtain ⟨⟨hfirst, -⟩, -, hn⟩ := hat
  obtain ⟨⟨hfirst', -⟩, -, hn'⟩ := hat'
  rw [whole, whole, expr_eq_walk hpost ((hn e List.mem_cons_self).mono hd),
    expr_eq_walk hpost' ((hn' e' List.mem_cons_self).mono hd), ← hfirst, ← hfirst']
  exact twin_tree hpost hpost' ht he he'

/-! ## Names and types -/

variable {l l' : Location}

variable (names l l') in
theorem twin_declare (name : Symbol) (ty : CheckedType) (kind : EntryKind) :
    Twin s s' 0 [l] [l'] (do let _ ← declare names name ty kind (some l))
      (do let _ ← declare names name ty kind (some l')) := fun _ _ _ _ _ hC =>
  (alongside_declare hC name ty kind).bind fun _ => .pure _

variable (names l l') in
theorem twin_checkType (ty : Ty) :
    Twin s s' 0 [l] [l'] (do let _ ← checkType names (some l) ty) (do let _ ← checkType names (some l') ty) :=
  fun _ _ _ _ _ hC => (alongside_checkType hC ty).bind fun _ => .pure _

/-- Steps for members that are alike. -/
theorem twin_members {f f' : TypedName → BindM Unit} (h : ∀ (name : Symbol) (ty : Ty) (l l' : Location),
      Twin s s' 0 [l] [l'] (f ⟨name, ty, some l⟩) (f' ⟨name, ty, some l'⟩)) : ∀ {ms ms' : List Member}
    {xs xs' : List TypedName}, List.Forall₂ Member.Alike ms ms' → List.Forall₂ (Member.Is names) ms xs →
    List.Forall₂ (Member.Is names) ms' xs' →
    Twin s s' 0 (ms.map (·.place)) (ms'.map (·.place)) (xs.forM f) (xs'.forM f')
  | [], [], [], [], _, _, _ => twin_pure
  | m :: _, m' :: _, x :: _, x' :: _, .cons hm hms, .cons hx hxs, .cons hx' hxs' => by
    have hone : Twin s s' 0 [m.place] [m'.place] (f x) (f' x') := by
      obtain ⟨hname, hty⟩ := hx.same hm hx'
      obtain ⟨name, ty, place⟩ := x
      obtain ⟨name', ty', place'⟩ := x'
      cases hname
      cases hty
      obtain rfl : place = some m.place := hx.2.2
      obtain rfl : place' = some m'.place := hx'.2.2
      exact h name ty m.place m'.place
    exact hone.seq (twin_members h hms hxs hxs')

variable (names) in
theorem twin_declareAll (kind : EntryKind) {ms ms' : List Member} {xs xs' : List TypedName}
    (hms : List.Forall₂ Member.Alike ms ms') (hxs : List.Forall₂ (Member.Is names) ms xs)
    (hxs' : List.Forall₂ (Member.Is names) ms' xs') :
    Twin s s' 0 (ms.map (·.place)) (ms'.map (·.place)) (declareAll names kind xs (xs.map fun y => y.ty.checked))
      (declareAll names kind xs' (xs'.map fun y => y.ty.checked)) := by
  rw [declareAll_eq, declareAll_eq]
  exact twin_members (fun name ty l l' => twin_declare names l l' name ty.checked kind) hms hxs hxs'

/-! ## Functions -/

theorem alongside_push (kind : ScopeKind) :
    Alongside R C j (modify fun b => { b with scopes := b.scopes.push (.empty kind) })
      (modify fun b => { b with scopes := b.scopes.push (.empty kind) }) (j + 1) :=
  .modify (fun _ _ h => ⟨congrArg (Scopes.push · _) h.scopes, h.classes, h.currentClass, h.meanings, h.cells,
    Nat.succ_lt_succ h.opened⟩) (fun _ => rfl) fun _ => rfl

theorem alongside_leave : Alongside R C (j + 1) leave leave j := by
  refine .modify (fun b b' h => ⟨congrArg Scopes.pop h.scopes, h.classes, h.currentClass, h.meanings, h.cells, ?_⟩)
    (fun _ => rfl) fun _ => rfl
  have := h.opened
  simp only [Scopes.pop, List.length_tail]
  omega

theorem alongside_enterFunction (hR : OneToOne R) {t t' : FunctionTree} {f f' : Function} (h : t.HeadAlike t')
    (hf : t.Is a names f) (hf' : t'.Is a' names f') (hC : C.Covers t.front t'.front) (kind : EntryKind) :
    Alongside R C j (enterFunction names f kind) (enterFunction names f' kind) (j + 1) := by
  obtain ⟨hname, htype⟩ := hf.same h hf'
  obtain ⟨name, ret, params, locals, body, place⟩ := t
  obtain ⟨name', ret', params', locals', body', place'⟩ := t'
  obtain ⟨-, -, hparams, -, -, hplace⟩ := hf
  obtain ⟨-, -, hparams', -, -, hplace'⟩ := hf'
  have hmembers : Twin 0 0 0 _ _ _ _ := twin_declareAll names .param h.2.2 hparams hparams'
  have hnone : Pairs R 0 0 0 := fun i hi => absurd hi (Nat.not_lt_zero i)
  unfold enterFunction
  rw [hname, htype, hplace, hplace']
  exact (alongside_declare (hC.one List.mem_cons_self List.mem_cons_self) f.name f.arrowType.checked kind).bind fun _ =>
    (alongside_push .function).bind fun _ => hmembers (j + 1) hR hnone
      (hC.mono (List.subset_cons_self _ _) (List.subset_cons_self _ _))

/-! ## Declarations -/

/-- Declarations that are alike are twins. -/
def TwinDecls (a a' : Arena) (names : Names) (d n n' : Nat) : Prop :=
  ∀ (t t' : DeclTree) (r r' : DeclRef) (p q p' q' : Pos), t.Alike t' → t.Stands a names r → t'.Stands a' names r' →
    a.DeclAt d n p r q → a'.DeclAt d n' p' r' q' →
    Twin p.nodes p'.nodes t.count t.places t'.places (decl a names n r) (decl a' names n' r')

variable {d n n' : Nat} {p q p' q' : Pos}

theorem twin_decls (hpost : a.Postordered) (hpost' : a'.Postordered) (h : TwinDecls a a' names d n n') :
    ∀ {ts ts' : List DeclTree} {rs rs' : List DeclRef} {p q p' q' : Pos}, DeclTree.AllAlike ts ts' →
    DeclTree.StandAll a names ts rs → DeclTree.StandAll a' names ts' rs' → Arena.Row (a.DeclAt d n) p rs q →
    Arena.Row (a'.DeclAt d n') p' rs' q' →
    Twin p.nodes p'.nodes (DeclTree.countAll ts) (DeclTree.placesAll ts) (DeclTree.placesAll ts')
      (rs.forM (decl a names n)) (rs'.forM (decl a' names n'))
  | [], [], [], [], _, _, _, _, _, _, _, _, _ => twin_pure
  | t :: _, t' :: _, r :: _, r' :: _, p, _, p', _, ⟨ht, hts⟩, ⟨hr, hrs⟩, ⟨hr', hrs'⟩, ⟨m, hat, hrow⟩, ⟨m', hat', hrow'⟩ => by
    have hfits : DeclTree.Fits a names d n := DeclTree.fits hpost n
    have hfits' : DeclTree.Fits a' names d n' := DeclTree.fits hpost' n'
    have hhead := h t t' r r' p m p' m' ht hr hr' hat hat'
    have htail := twin_decls hpost hpost' h hts hrs hrs' hrow hrow'
    rw [(hfits hr hat).1, (hfits' hr' hat').1, ht.count_eq] at htail
    exact hhead.seq htail

/-- The insides of functions that are alike are twins. -/
theorem twin_region (hpost : a.Postordered) (hpost' : a'.Postordered) (hd : d ≤ maxNesting) (h : TwinDecls a a' names d n n')
    {t t' : FunctionTree} {f f' : Function} (ht : t.Alike t') (hf : t.Is a names f) (hf' : t'.Is a' names f')
    (hat : a.FunctionAt d (a.DeclAt d n) p f q) (hat' : a'.FunctionAt d (a'.DeclAt d n') p' f' q') :
    Twin p.nodes p'.nodes t.count t.inside t'.inside (region a names n f.locals f.body)
      (region a' names n' f'.locals f'.body) := by
  obtain ⟨name, ret, params, locals, body, place⟩ := t
  obtain ⟨name', ret', params', locals', body', place'⟩ := t'
  obtain ⟨-, -, -, hlocals, hbody⟩ := ht
  obtain ⟨-, -, -, hls, hb, -⟩ := hf
  obtain ⟨-, -, -, hls', hb', -⟩ := hf'
  obtain ⟨m, hrow, hfill⟩ := hat
  obtain ⟨m', hrow', hfill'⟩ := hat'
  have hfits : DeclTree.Fits a names d n := DeclTree.fits hpost n
  have hfits' : DeclTree.Fits a' names d n' := DeclTree.fits hpost' n'
  have hin := twin_whole hpost hpost' hd hbody hb hb' hfill hfill'
  rw [(hfits.row hls hrow).1, (hfits'.row hls' hrow').1, hlocals.count_eq] at hin
  exact (twin_decls hpost hpost' h hlocals hls hls' hrow hrow').seq hin

/-- Functions whose heads are alike run alongside each other, if their insides do. -/
theorem alongside_function (hR : OneToOne R) {t t' : FunctionTree} {f f' : Function} (ht : t.HeadAlike t')
    (hf : t.Is a names f) (hf' : t'.Is a' names f') (hC : C.Covers t.front t'.front)
    (hin : Alongside R C (j + 1) (do region a names n f.locals f.body; leave)
      (do region a' names n' f'.locals f'.body; leave) j) (kind : EntryKind) :
    Alongside R C j (function a names (decl a names n) f f.arrowType.checked kind)
      (function a' names (decl a' names n') f' f'.arrowType.checked kind) j :=
  ((alongside_enterFunction hR ht hf hf' hC kind).bind fun _ => hin).congr (function_run a f kind) (function_run a' f' kind)

theorem alongside_headType {t t' : FunctionTree} {f f' : Function} (ht : t.HeadAlike t') (hf : t.Is a names f)
    (hf' : t'.Is a' names f') (hC : C.Covers t.front t'.front) :
    Alongside R C j (checkType names f.location f.arrowType) (checkType names f'.location f'.arrowType) j := by
  obtain ⟨l, hl, hplace⟩ := hf.exists_place
  obtain ⟨l', hl', hplace'⟩ := hf'.exists_place
  rw [(hf.same ht hf').2, hplace, hplace']
  exact alongside_checkType (hC.one hl hl') f.arrowType

theorem alongside_funDecl (hR : OneToOne R) {t t' : FunctionTree} {r r' : DeclRef} {f f' : Function} (ht : t.HeadAlike t')
    (hx : a.decl? r = some (.funDecl f)) (hx' : a'.decl? r' = some (.funDecl f')) (hf : t.Is a names f)
    (hf' : t'.Is a' names f') (hC : C.Covers t.front t'.front)
    (hin : Alongside R C (j + 1) (do region a names n f.locals f.body; leave)
      (do region a' names n' f'.locals f'.body; leave) j) :
    Alongside R C j (decl a names (n + 1) r) (decl a' names (n' + 1) r') j := by
  have hall := (alongside_headType (j := j) ht hf hf' hC).bind fun _ =>
    (alongside_enterFunction hR ht hf hf' hC .func).bind fun _ => hin
  exact hall.congr (decl_function hx) (decl_function hx')

/-- Functions that are alike are twins. -/
theorem twin_inside (hpost : a.Postordered) (hpost' : a'.Postordered) (hd : d ≤ maxNesting)
    (h : TwinDecls a a' names d n n') {t t' : FunctionTree} {f f' : Function} (ht : t.Alike t') (hf : t.Is a names f)
    (hf' : t'.Is a' names f') (hat : a.FunctionAt d (a.DeclAt d n) p f q)
    (hat' : a'.FunctionAt d (a'.DeclAt d n') p' f' q') (hR : OneToOne R) (hp : Pairs R p.nodes p'.nodes t.count)
    (hC : C.Covers t.inside t'.inside) :
    Alongside R C (j + 1) (do region a names n f.locals f.body; leave)
      (do region a' names n' f'.locals f'.body; leave) j :=
  ((twin_region hpost hpost' hd h ht hf hf' hat hat') (j + 1) hR hp hC).bind fun _ => alongside_leave

theorem twin_methods (hpost : a.Postordered) (hpost' : a'.Postordered) (hd : d ≤ maxNesting)
    (h : TwinDecls a a' names d n n') : ∀ {ts ts' : List FunctionTree} {ms ms' : List Function} {p q p' q' : Pos},
    FunctionTree.AllAlike ts ts' → FunctionTree.AreAll a names ts ms → FunctionTree.AreAll a' names ts' ms' →
    Arena.Row (a.FunctionAt d (a.DeclAt d n)) p ms q → Arena.Row (a'.FunctionAt d (a'.DeclAt d n')) p' ms' q' →
    Twin p.nodes p'.nodes (FunctionTree.countAll ts) (FunctionTree.placesAll ts) (FunctionTree.placesAll ts')
      (methods a names n ms) (methods a' names n' ms')
  | [], [], [], [], _, _, _, _, _, _, _, _, _ => twin_pure
  | t :: _, t' :: _, m :: _, m' :: _, p, _, p', _, ⟨ht, hts⟩, ⟨hm, hms⟩, ⟨hm', hms'⟩, ⟨o, hat, hrow⟩, ⟨o', hat', hrow'⟩ => by
    have hfits : DeclTree.Fits a names d n := DeclTree.fits hpost n
    have hfits' : DeclTree.Fits a' names d n' := DeclTree.fits hpost' n'
    have htail := twin_methods hpost hpost' hd h hts hms hms' hrow hrow'
    rw [(hfits.function hpost hm hat).1, (hfits'.function hpost' hm' hat').1, ht.count_eq] at htail
    have hhead : Twin p.nodes p'.nodes t.count t.places t'.places (function a names (decl a names n) m m.arrowType.checked .method)
        (function a' names (decl a' names n') m' m'.arrowType.checked .method) := by
      intro R C j hR hp hC
      rw [FunctionTree.places_eq, FunctionTree.places_eq] at hC
      exact alongside_function hR ht.head hm hm' (hC.mono (List.subset_append_left _ _) (List.subset_append_left _ _))
        (twin_inside hpost hpost' hd h ht hm hm' hat hat' hR hp
          (hC.mono (List.subset_append_right _ _) (List.subset_append_right _ _))) .method
    exact hhead.seq htail

/-! ### Classes -/

/-- The places of the heads of functions. -/
def fronts (ts : List FunctionTree) : List Location := ts.flatMap FunctionTree.front

theorem fronts_subset (ts : List FunctionTree) : fronts ts ⊆ FunctionTree.placesAll ts := by
  induction ts with
  | nil => exact List.nil_subset _
  | cons t ts ih =>
    rw [fronts, List.flatMap_cons, FunctionTree.placesAll, FunctionTree.places_eq]
    refine List.append_subset.2 ⟨fun l hl => ?_, fun l hl => List.mem_append_right _ (ih hl)⟩
    exact List.mem_append_left _ (List.mem_append_left _ hl)

/-- The places of the head of a class are among its places, if those of its methods are. -/
theorem head_subset {l : Location} (h : K ⊆ L) : l :: (K' ++ K) ⊆ l :: (K' ++ L) :=
  List.cons_subset_cons l
    (List.append_subset.2 ⟨List.subset_append_left _ _, List.subset_append_of_subset_right _ h⟩)

variable (names) in
theorem twin_heads : ∀ {ts ts' : List FunctionTree} {ms ms' : List Function}, List.Forall₂ FunctionTree.HeadAlike ts ts' →
    FunctionTree.AreAll a names ts ms → FunctionTree.AreAll a' names ts' ms' →
    Twin s s' 0 (fronts ts) (fronts ts') (ms.forM fun m => do let _ ← checkType names m.location m.arrowType)
      (ms'.forM fun m => do let _ ← checkType names m.location m.arrowType)
  | [], [], [], [], _, _, _ => twin_pure
  | t :: _, t' :: _, m :: _, m' :: _, .cons ht hts, ⟨hm, hms⟩, ⟨hm', hms'⟩ => by
    have hone : Twin s s' 0 t.front t'.front (do let _ ← checkType names m.location m.arrowType)
        (do let _ ← checkType names m'.location m'.arrowType) := fun _ _ _ _ _ hC =>
      (alongside_headType ht hm hm' hC).bind fun _ => .pure _
    exact hone.seq (twin_heads hts hms hms')

theorem shape_eq : ∀ {ts ts' : List FunctionTree} {ms ms' : List Function}, List.Forall₂ FunctionTree.HeadAlike ts ts' →
    FunctionTree.AreAll a names ts ms → FunctionTree.AreAll a' names ts' ms' →
    ms'.map (·.arrowType.checked) = ms.map (·.arrowType.checked)
  | [], [], [], [], _, _, _ => rfl
  | _ :: _, _ :: _, _ :: _, _ :: _, .cons ht hts, ⟨hm, hms⟩, ⟨hm', hms'⟩ => by
    rw [List.map_cons, List.map_cons, (hm.same ht hm').2, shape_eq hts hms hms']

/-- The classes have the same name and members of the same names and types, which are reported at the places `L` and
`L'`. -/
structure SameHeads (names : Names) (L L' : List Location) (c c' : Class) : Prop where
  name : c'.name = c.name
  shape : c'.shape = c.shape
  place : ∃ l ∈ L, ∃ l' ∈ L', c.location = some l ∧ c'.location = some l'
  types : Twin 0 0 0 L L' (do let _ ← classShape names c) (do let _ ← classShape names c')
  fields : Twin 0 0 0 L L' (declareAll names .field c.fields (c.fields.map fun x => x.ty.checked))
    (declareAll names .field c'.fields (c'.fields.map fun x => x.ty.checked))

theorem sameHeads {name : String} {fields fields' : List Member} {ts ts' : List FunctionTree} {place place' : Location}
    {r r' : DeclRef} {c c' : Class} (hx : a.decl? r = some (.classDecl c)) (hx' : a'.decl? r' = some (.classDecl c'))
    (hr : (DeclTree.cls name fields ts place).Stands a names r)
    (hr' : (DeclTree.cls name fields' ts' place').Stands a' names r') (hfields : List.Forall₂ Member.Alike fields fields')
    (hts : List.Forall₂ FunctionTree.HeadAlike ts ts') :
    SameHeads names (place :: (fields.map (·.place) ++ fronts ts)) (place' :: (fields'.map (·.place) ++ fronts ts'))
      c c' := by
  obtain ⟨_, hy, hname, hfs, hms, hplace⟩ := hr
  obtain ⟨_, hy', hname', hfs', hms', hplace'⟩ := hr'
  cases hx.symm.trans hy
  cases hx'.symm.trans hy'
  have hsame : c'.name = c.name := Option.some.inj (hname'.symm.trans hname)
  have htypes : c'.fields.map (fun x => x.ty.checked) = c.fields.map fun x => x.ty.checked := by
    have heq := congrArg (List.map Ty.checked) (Member.types_eq hfields hfs hfs')
    rwa [List.map_map, List.map_map] at heq
  refine ⟨hsame, ?_, ⟨place, List.mem_cons_self, place', List.mem_cons_self, hplace, hplace'⟩, ?_, ?_⟩
  · rw [Class.shape, Class.shape, hsame, htypes, shape_eq hts hms hms']
  · have hall : Twin 0 0 0 _ _ (c.fields.forM fun m => do let _ ← checkType names m.location m.ty)
        (c'.fields.forM fun m => do let _ ← checkType names m.location m.ty) :=
      twin_members (fun _ ty l l' => twin_checkType names l l' ty) hfields hfs hfs'
    have hshape := hall.seq (twin_heads names hts hms hms')
    exact (hshape.mono (List.subset_cons_self _ _) (List.subset_cons_self _ _)).congr (classShape_run c)
      (classShape_run c')
  · refine (twin_declareAll names .field hfields hfs hfs').mono ?_ ?_
    · exact fun l hl => List.mem_cons_of_mem _ (List.mem_append_left _ hl)
    · exact fun l hl => List.mem_cons_of_mem _ (List.mem_append_left _ hl)

variable {c c' : Class}

theorem alongside_setClass (current : Option Symbol) :
    Alongside R C j (modify fun b => { b with currentClass := current })
      (modify fun b => { b with currentClass := current }) j :=
  .modify (fun _ _ h => ⟨h.scopes, h.classes, rfl, h.meanings, h.cells, h.opened⟩) (fun _ => rfl) fun _ => rfl

theorem alongside_enterClass (hR : OneToOne R) (h : SameHeads names L L' c c') (hC : C.Covers L L') :
    Alongside R C j (enterClass names c) (enterClass names c') (j + 1) := by
  have hnone : Pairs R 0 0 0 := fun i hi => absurd hi (Nat.not_lt_zero i)
  obtain ⟨l, hl, l', hl', hplace, hplace'⟩ := h.place
  have hdeclare : Alongside R C j (declare names c.name c.shape.type .cls (some l))
      (declare names c.name c.shape.type .cls (some l')) j := alongside_declare (hC.one hl hl') c.name c.shape.type .cls
  have hall := (alongside_setClass (some c.name)).bind fun _ => (h.types j hR hnone hC).bind fun _ =>
    hdeclare.bind fun _ => (alongside_push (.cls c.name)).bind fun _ => h.fields (j + 1) hR hnone hC
  rw [← hplace, ← hplace'] at hall
  refine hall.congr (fun _ => rfl) fun _ => ?_
  unfold enterClass
  rw [h.name, h.shape]
  rfl

theorem alongside_leaveClass (h : SameHeads names L L' c c') (free : Bool) :
    Alongside R C (j + 1) (leaveClass c free) (leaveClass c' free) j := by
  refine .get fun b b' hb => alongside_leave.bind fun _ => ?_
  rw [h.name, h.shape, hb.scopes]
  refine (alongside_setClass none).bind fun _ => ?_
  cases free with
  | false => exact .pure _
  | true =>
    cases b.scopes.current? with
    | none => exact .pure _
    | some scope =>
      exact .modify (fun _ _ hb => ⟨hb.scopes, by rw [hb.classes], hb.currentClass, hb.meanings, hb.cells, hb.opened⟩)
        (fun _ => rfl) fun _ => rfl

/-- Classes with the same heads run alongside each other, if their methods do. -/
theorem alongside_classDecl (hR : OneToOne R) {r r' : DeclRef} (hx : a.decl? r = some (.classDecl c))
    (hx' : a'.decl? r' = some (.classDecl c')) (h : SameHeads names L L' c c') (hC : C.Covers L L')
    (hin : Alongside R C (j + 1) (methods a names n c.methods) (methods a' names n' c'.methods) (j + 1)) :
    Alongside R C j (decl a names (n + 1) r) (decl a' names (n' + 1) r') j := by
  intro b b' hb
  by_cases hdepth : b.scopes.depth = 0
  · have hall := (alongside_enterClass hR h hC).bind fun _ => hin.bind fun _ =>
      alongside_leaveClass (j := j) h (b.scopes.declare c.name 0 c.shape.type .cls).isSome
    rw [decl_class_run hx b hdepth, decl_class_run hx' b' (hb.depth.trans hdepth), h.name, h.shape, hb.scopes]
    exact ⟨Subsingleton.elim _ _, (hall b b' hb).2⟩
  · obtain ⟨l, hl, l', hl', hplace, hplace'⟩ := h.place
    rw [decl_classDecl hx, decl_classDecl hx', if_neg hdepth, if_neg (hb.depth ▸ hdepth), h.name, hplace, hplace']
    exact alongside_report (hC.one hl hl') _ b b' hb

/-! ### All of them -/

/-- Variables that are alike are twins. -/
theorem twin_varDecl (hpost : a.Postordered) (hpost' : a'.Postordered) (hd : d ≤ maxNesting) {name : String}
    {type : TypeTree} {init init' : Tree} {place place' : Location} {r r' : DeclRef} (hinit : init.Alike init')
    (hr : (DeclTree.var name type init place).Stands a names r) (hr' : (DeclTree.var name type init' place').Stands a' names r')
    (hat : a.DeclAt d (n + 1) p r q) (hat' : a'.DeclAt d (n' + 1) p' r' q') :
    Twin p.nodes p'.nodes init.count (place :: init.places) (place' :: init'.places) (decl a names (n + 1) r)
      (decl a' names (n' + 1) r') := by
  obtain ⟨v, hx, hname, hty, he, hplace⟩ := hr
  obtain ⟨v', hx', hname', hty', he', hplace'⟩ := hr'
  have hvar : Twin (p.nodes + init.count) (p'.nodes + init.count) 0 [place] [place'] (declareVar names v)
      (declareVar names v') := by
    intro R C j _ _ hC
    rw [declareVar, declareVar, hplace, hplace', hty.unique hty', Option.some.inj (hname'.symm.trans hname)]
    exact (alongside_checkType hC v.ty).bind fun ty => (alongside_declare hC v.name ty .var).bind fun _ => .pure _
  rw [decl_var hx, decl_var hx']
  refine ((twin_whole hpost hpost' hd hinit he he' (hat.var hx) (hat'.var hx')).seq hvar).mono ?_ ?_
  · exact List.append_subset.2 ⟨List.subset_cons_self _ _, List.cons_subset.2 ⟨List.mem_cons_self, List.nil_subset _⟩⟩
  · exact List.append_subset.2 ⟨List.subset_cons_self _ _, List.cons_subset.2 ⟨List.mem_cons_self, List.nil_subset _⟩⟩

theorem heads_of_allAlike {ts ts' : List FunctionTree} (h : FunctionTree.AllAlike ts ts') :
    List.Forall₂ FunctionTree.HeadAlike ts ts' := by
  induction ts generalizing ts' with
  | nil =>
    cases ts' with
    | nil => exact .nil
    | cons t' ts' => exact h.elim
  | cons t ts ih =>
    cases ts' with
    | nil => exact h.elim
    | cons t' ts' => exact .cons h.1.head (ih h.2)

/-- **Declarations that are written the same are bound the same.** -/
theorem twin_decl (hpost : a.Postordered) (hpost' : a'.Postordered) (hd : d ≤ maxNesting) : ∀ n n' : Nat,
    TwinDecls a a' names d n n' := by
  intro n
  induction n with
  | zero => exact fun _ _ _ _ _ _ _ _ _ _ _ _ hat _ => hat.elim
  | succ n ih =>
    intro n' t t' r r' p q p' q' ht hr hr' hat hat'
    cases n' with
    | zero => exact hat'.elim
    | succ n' =>
      cases t with
      | var name type init place => cases t' with
        | var name' type' init' place' =>
          obtain ⟨rfl, rfl, hinit⟩ := ht
          exact twin_varDecl hpost hpost' hd hinit hr hr' hat hat'
        | _ => exact ht.elim
      | function t => cases t' with
        | function t' =>
          obtain ⟨f, hx, hf⟩ := hr
          obtain ⟨f', hx', hf'⟩ := hr'
          intro R C j hR hp hC
          rw [DeclTree.places, DeclTree.places, t.places_eq, t'.places_eq] at hC
          exact alongside_funDecl hR (FunctionTree.Alike.head ht) hx hx' hf hf'
            (hC.mono (List.subset_append_left _ _) (List.subset_append_left _ _))
            (twin_inside hpost hpost' hd (ih n') ht hf hf' (hat.function hx) (hat'.function hx') hR hp
              (hC.mono (List.subset_append_right _ _) (List.subset_append_right _ _)))
        | _ => exact ht.elim
      | cls name fields ts place => cases t' with
        | cls name' fields' ts' place' =>
          obtain ⟨rfl, hfields, hts⟩ := ht
          obtain ⟨c, hx, -, -, hms, -⟩ := id hr
          obtain ⟨c', hx', -, -, hms', -⟩ := id hr'
          have hheads := sameHeads hx hx' hr hr' hfields (heads_of_allAlike hts)
          intro R C j hR hp hC
          refine alongside_classDecl hR hx hx' hheads
            (hC.mono (head_subset (fronts_subset ts)) (head_subset (fronts_subset ts')))
            (twin_methods hpost hpost' hd (ih n') hts hms hms' (hat.methods hx) (hat'.methods hx') (j + 1) hR hp
              (hC.mono ?_ ?_))
          · exact fun l hl => List.mem_cons_of_mem _ (List.mem_append_right _ hl)
          · exact fun l hl => List.mem_cons_of_mem _ (List.mem_append_right _ hl)
        | _ => exact ht.elim

end Binder

end Fool
