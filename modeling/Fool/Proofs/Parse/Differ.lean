import Fool.Proofs.Parse.Places

/-!
# Programs that differ inside one function

Two programs may be written the same but for the local declarations and the body of one function or method:
`ProgramTree.DiffersIn g g' k t t'` says this of their trees. Up to the numbers of expressions the inside of a function is a
gap then. `k` counts the expressions in front of the gap, and `count` those of a tree, which are the numbers that the
expressions of the tree take in the arena (`DeclTree.Stands.count_eq`). `places` lists the places at which binding can find
something wrong; those of the tree are those of the program (`ProgramTree.Is.places_eq`).
-/

namespace Fool

namespace Syntax

/-! ## Expressions and places of trees -/

/-- Such an expression refers to something that is declared. -/
def Form.refers : Form → Bool
  | .name _ | .call _ | .methodCall .. | .new _ => true
  | _ => false

mutual

/-- How many expressions a tree consists of. -/
def Tree.count : Tree → Nat
  | .node _ _ parts => Tree.countAll parts + 1

/-- How many expressions the trees consist of. -/
def Tree.countAll : List Tree → Nat
  | [] => 0
  | t :: ts => t.count + Tree.countAll ts

end

mutual

/-- How many expressions there are in a function; all of them are inside of it. -/
def FunctionTree.count : FunctionTree → Nat
  | .mk _ _ _ locals body _ => DeclTree.countAll locals + body.count

/-- How many expressions there are in the functions. -/
def FunctionTree.countAll : List FunctionTree → Nat
  | [] => 0
  | f :: fs => f.count + FunctionTree.countAll fs

/-- How many expressions there are in a declaration. -/
def DeclTree.count : DeclTree → Nat
  | .var _ _ init _ => init.count
  | .function f => f.count
  | .cls _ _ methods _ => FunctionTree.countAll methods

/-- How many expressions there are in the declarations. -/
def DeclTree.countAll : List DeclTree → Nat
  | [] => 0
  | d :: ds => d.count + DeclTree.countAll ds

end

mutual

/-- The places of the references in a tree. -/
def Tree.places : Tree → List Location
  | .node form place parts => (if form.refers then [place] else []) ++ Tree.placesAll parts

/-- The places of the references in the trees. -/
def Tree.placesAll : List Tree → List Location
  | [] => []
  | t :: ts => t.places ++ Tree.placesAll ts

end

mutual

/-- The places of a function: its own, those of its parameters, and those inside of it. -/
def FunctionTree.places : FunctionTree → List Location
  | .mk _ _ params locals body place =>
    place :: (params.map (·.place) ++ (DeclTree.placesAll locals ++ body.places))

/-- The places of the functions. -/
def FunctionTree.placesAll : List FunctionTree → List Location
  | [] => []
  | f :: fs => f.places ++ FunctionTree.placesAll fs

/-- The places of a declaration. -/
def DeclTree.places : DeclTree → List Location
  | .var _ _ init place => place :: init.places
  | .function f => f.places
  | .cls _ fields methods place => place :: (fields.map (·.place) ++ FunctionTree.placesAll methods)

/-- The places of the declarations. -/
def DeclTree.placesAll : List DeclTree → List Location
  | [] => []
  | d :: ds => d.places ++ DeclTree.placesAll ds

end

/-- The places of a function in front of its inside. -/
def FunctionTree.front : FunctionTree → List Location
  | .mk _ _ params _ _ place => place :: params.map (·.place)

/-- The places of the local declarations and the body of a function. -/
def FunctionTree.inside : FunctionTree → List Location
  | .mk _ _ _ locals body _ => DeclTree.placesAll locals ++ body.places

theorem FunctionTree.places_eq (f : FunctionTree) : f.places = f.front ++ f.inside := by
  cases f
  rfl

theorem FunctionTree.countAll_append (fs fs' : List FunctionTree) :
    countAll (fs ++ fs') = countAll fs + countAll fs' := by
  induction fs with
  | nil => rw [List.nil_append, countAll, Nat.zero_add]
  | cons f fs ih => rw [List.cons_append, countAll, countAll, ih, Nat.add_assoc]

theorem FunctionTree.placesAll_append (fs fs' : List FunctionTree) :
    placesAll (fs ++ fs') = placesAll fs ++ placesAll fs' := by
  induction fs with
  | nil => rfl
  | cons f fs ih => rw [List.cons_append, placesAll, placesAll, ih, List.append_assoc]

theorem DeclTree.countAll_append (ds ds' : List DeclTree) : countAll (ds ++ ds') = countAll ds + countAll ds' := by
  induction ds with
  | nil => rw [List.nil_append, countAll, Nat.zero_add]
  | cons d ds ih => rw [List.cons_append, countAll, countAll, ih, Nat.add_assoc]

theorem DeclTree.placesAll_append (ds ds' : List DeclTree) : placesAll (ds ++ ds') = placesAll ds ++ placesAll ds' := by
  induction ds with
  | nil => rfl
  | cons d ds ih => rw [List.cons_append, placesAll, placesAll, ih, List.append_assoc]

/-- The places of a program. -/
def ProgramTree.places (t : ProgramTree) : List Location := DeclTree.placesAll t.declarations ++ t.body.places

/-! ## Trees that are written the same -/

mutual

/-- The trees are the same but for their places. -/
def Tree.Alike : Tree → Tree → Prop
  | .node form _ parts, .node form' _ parts' => form' = form ∧ Tree.AllAlike parts parts'

/-- The trees are the same but for their places. -/
def Tree.AllAlike : List Tree → List Tree → Prop
  | [], [] => True
  | t :: ts, t' :: ts' => t.Alike t' ∧ Tree.AllAlike ts ts'
  | _, _ => False

end

/-- The parameters or fields are the same but for their places. -/
def Member.Alike (m m' : Member) : Prop := m'.name = m.name ∧ m'.type = m.type

mutual

/-- The functions are the same but for their places. -/
def FunctionTree.Alike : FunctionTree → FunctionTree → Prop
  | .mk name ret params locals body _, .mk name' ret' params' locals' body' _ =>
    name' = name ∧ ret' = ret ∧ List.Forall₂ Member.Alike params params' ∧ DeclTree.AllAlike locals locals' ∧
      body.Alike body'
termination_by structural t => t

/-- The functions are the same but for their places. -/
def FunctionTree.AllAlike : List FunctionTree → List FunctionTree → Prop
  | [], [] => True
  | f :: fs, f' :: fs' => f.Alike f' ∧ FunctionTree.AllAlike fs fs'
  | _, _ => False
termination_by structural t => t

/-- The declarations are the same but for their places. -/
def DeclTree.Alike : DeclTree → DeclTree → Prop
  | .var name type init _, .var name' type' init' _ => name' = name ∧ type' = type ∧ init.Alike init'
  | .function f, .function f' => f.Alike f'
  | .cls name fields methods _, .cls name' fields' methods' _ =>
    name' = name ∧ List.Forall₂ Member.Alike fields fields' ∧ FunctionTree.AllAlike methods methods'
  | _, _ => False
termination_by structural t => t

/-- The declarations are the same but for their places. -/
def DeclTree.AllAlike : List DeclTree → List DeclTree → Prop
  | [], [] => True
  | d :: ds, d' :: ds' => d.Alike d' ∧ DeclTree.AllAlike ds ds'
  | _, _ => False
termination_by structural t => t

end

/-- In front of their local declarations the functions are the same but for their places. -/
def FunctionTree.HeadAlike : FunctionTree → FunctionTree → Prop
  | .mk name ret params _ _ _, .mk name' ret' params' _ _ _ =>
    name' = name ∧ ret' = ret ∧ List.Forall₂ Member.Alike params params'

theorem FunctionTree.Alike.head {f f' : FunctionTree} (h : f.Alike f') : f.HeadAlike f' := by
  cases f
  cases f'
  exact ⟨h.1, h.2.1, h.2.2.1⟩

/-- The functions are `g` and `g'`, which have the same head, or they are the same but for one local declaration, which
differs in `D`. The number counts the expressions in front of the inside of `g`. -/
inductive FunctionTree.DiffersBy (g g' : FunctionTree) (D : Nat → DeclTree → DeclTree → Prop) :
    Nat → FunctionTree → FunctionTree → Prop
  | here : g.HeadAlike g' → DiffersBy g g' D 0 g g'
  | inner {name : String} {ret : TypeTree} {params params' : List Member} {before before' after after' : List DeclTree}
      {d d' : DeclTree} {body body' : Tree} {place place' : Location} {k : Nat} :
      List.Forall₂ Member.Alike params params' → DeclTree.AllAlike before before' → D k d d' →
      DeclTree.AllAlike after after' → body.Alike body' →
      DiffersBy g g' D (DeclTree.countAll before + k) (.mk name ret params (before ++ d :: after) body place)
        (.mk name ret params' (before' ++ d' :: after') body' place')

/-- The declarations are the same but for the inside of one function or method, which is that of `g` and that of `g'`, and
but for places. The number counts the expressions in front of the inside. -/
inductive DeclTree.DiffersIn (g g' : FunctionTree) : Nat → DeclTree → DeclTree → Prop
  | function {f f' : FunctionTree} {k : Nat} : FunctionTree.DiffersBy g g' (DiffersIn g g') k f f' →
      DiffersIn g g' k (.function f) (.function f')
  | method {name : String} {fields fields' : List Member} {before before' after after' : List FunctionTree}
      {m m' : FunctionTree} {place place' : Location} {k : Nat} : List.Forall₂ Member.Alike fields fields' →
      FunctionTree.AllAlike before before' → FunctionTree.DiffersBy g g' (DiffersIn g g') k m m' →
      FunctionTree.AllAlike after after' →
      DiffersIn g g' (FunctionTree.countAll before + k) (.cls name fields (before ++ m :: after) place)
        (.cls name fields' (before' ++ m' :: after') place')

/-- **The programs differ inside one function or method,** and in places, and in nothing else. The number counts the
expressions in front of the inside. -/
inductive ProgramTree.DiffersIn (g g' : FunctionTree) : Nat → ProgramTree → ProgramTree → Prop
  | mk {before before' after after' : List DeclTree} {d d' : DeclTree} {body body' : Tree} {k : Nat} :
      DeclTree.AllAlike before before' → DeclTree.DiffersIn g g' k d d' → DeclTree.AllAlike after after' →
      body.Alike body' →
      DiffersIn g g' (DeclTree.countAll before + k) ⟨before ++ d :: after, body⟩ ⟨before' ++ d' :: after', body'⟩

theorem FunctionTree.DiffersBy.head {g g' f f' : FunctionTree} {D : Nat → DeclTree → DeclTree → Prop} {k : Nat}
    (h : DiffersBy g g' D k f f') : f.HeadAlike f' := by
  cases h with
  | here h => exact h
  | inner hparams _ _ _ _ => exact ⟨rfl, rfl, hparams⟩

/-! ## Every tree is like itself -/

mutual

theorem Tree.Alike.refl : ∀ t : Tree, t.Alike t
  | .node _ _ parts => ⟨rfl, Tree.AllAlike.refl parts⟩

theorem Tree.AllAlike.refl : ∀ ts : List Tree, Tree.AllAlike ts ts
  | [] => trivial
  | t :: ts => ⟨Tree.Alike.refl t, Tree.AllAlike.refl ts⟩

end

theorem Member.forall₂_refl (ms : List Member) : List.Forall₂ Member.Alike ms ms :=
  List.forall₂_same.2 fun _ _ => ⟨rfl, rfl⟩

mutual

theorem FunctionTree.Alike.refl : ∀ f : FunctionTree, f.Alike f
  | .mk _ _ params locals body _ =>
    ⟨rfl, rfl, Member.forall₂_refl params, DeclTree.AllAlike.refl locals, Tree.Alike.refl body⟩

theorem FunctionTree.AllAlike.refl : ∀ fs : List FunctionTree, FunctionTree.AllAlike fs fs
  | [] => trivial
  | f :: fs => ⟨FunctionTree.Alike.refl f, FunctionTree.AllAlike.refl fs⟩

theorem DeclTree.Alike.refl : ∀ d : DeclTree, d.Alike d
  | .var _ _ init _ => ⟨rfl, rfl, Tree.Alike.refl init⟩
  | .function f => FunctionTree.Alike.refl f
  | .cls _ fields methods _ => ⟨rfl, Member.forall₂_refl fields, FunctionTree.AllAlike.refl methods⟩

theorem DeclTree.AllAlike.refl : ∀ ds : List DeclTree, DeclTree.AllAlike ds ds
  | [] => trivial
  | d :: ds => ⟨DeclTree.Alike.refl d, DeclTree.AllAlike.refl ds⟩

end

/-! ## Trees that are alike have as many expressions -/

mutual

theorem Tree.Alike.count_eq : ∀ {t t' : Tree}, t.Alike t' → t'.count = t.count
  | .node .., .node .., ⟨_, hparts⟩ => by rw [Tree.count, Tree.count, Tree.AllAlike.count_eq hparts]

theorem Tree.AllAlike.count_eq : ∀ {ts ts' : List Tree}, Tree.AllAlike ts ts' → Tree.countAll ts' = Tree.countAll ts
  | [], [], _ => rfl
  | _ :: _, _ :: _, ⟨ht, hts⟩ => by rw [Tree.countAll, Tree.countAll, ht.count_eq, Tree.AllAlike.count_eq hts]

end

mutual

theorem FunctionTree.Alike.count_eq : ∀ {f f' : FunctionTree}, f.Alike f' → f'.count = f.count
  | .mk .., .mk .., ⟨_, _, _, hlocals, hbody⟩ => by
    rw [FunctionTree.count, FunctionTree.count, DeclTree.AllAlike.count_eq hlocals, hbody.count_eq]

theorem FunctionTree.AllAlike.count_eq : ∀ {fs fs' : List FunctionTree}, FunctionTree.AllAlike fs fs' →
    FunctionTree.countAll fs' = FunctionTree.countAll fs
  | [], [], _ => rfl
  | _ :: _, _ :: _, ⟨hf, hfs⟩ => by
    rw [FunctionTree.countAll, FunctionTree.countAll, hf.count_eq, FunctionTree.AllAlike.count_eq hfs]

theorem DeclTree.Alike.count_eq : ∀ {d d' : DeclTree}, d.Alike d' → d'.count = d.count
  | .var .., .var .., ⟨_, _, hinit⟩ => hinit.count_eq
  | .function _, .function _, hf => FunctionTree.Alike.count_eq hf
  | .cls .., .cls .., ⟨_, _, hmethods⟩ => FunctionTree.AllAlike.count_eq hmethods

theorem DeclTree.AllAlike.count_eq : ∀ {ds ds' : List DeclTree}, DeclTree.AllAlike ds ds' →
    DeclTree.countAll ds' = DeclTree.countAll ds
  | [], [], _ => rfl
  | _ :: _, _ :: _, ⟨hd, hds⟩ => by
    rw [DeclTree.countAll, DeclTree.countAll, hd.count_eq, DeclTree.AllAlike.count_eq hds]

end

/-! ## Trees in the arena -/

section Stands

variable {a : Arena} {names : Names} {k : Nat}

mutual

/-- A type is one type only. -/
theorem TypeTree.Is.unique : ∀ {t : TypeTree} {ty ty' : Ty}, t.Is names ty → t.Is names ty' → ty' = ty
  | .int, .int, .int, _, _ => rfl
  | .bool, .bool, .bool, _, _ => rfl
  | .object _, .object _, .object _, h, h' => congrArg Ty.object (Option.some.inj (h'.symm.trans h))
  | .arrow .., .arrow .., .arrow .., ⟨hp, hr⟩, ⟨hp', hr'⟩ => by rw [TypeTree.AreAll.unique hp hp', hr.unique hr']

theorem TypeTree.AreAll.unique : ∀ {ts : List TypeTree} {tys tys' : List Ty}, TypeTree.AreAll names ts tys →
    TypeTree.AreAll names ts tys' → tys' = tys
  | [], [], [], _, _ => rfl
  | _ :: _, _ :: _, _ :: _, ⟨h, hs⟩, ⟨h', hs'⟩ => by rw [h.unique h', TypeTree.AreAll.unique hs hs']

end

/-- Members that are alike have the same names and types. -/
theorem Member.Is.same {m m' : Member} {x x' : TypedName} (h : m.Alike m') (hx : m.Is names x) (hx' : m'.Is names x') :
    x'.name = x.name ∧ x'.ty = x.ty := by
  obtain ⟨hname, htype, -⟩ := hx
  obtain ⟨hname', htype', -⟩ := hx'
  rw [h.1] at hname'
  rw [h.2] at htype'
  exact ⟨Option.some.inj (hname'.symm.trans hname), htype.unique htype'⟩

theorem Member.types_eq : ∀ {ms ms' : List Member} {xs xs' : List TypedName}, List.Forall₂ Member.Alike ms ms' →
    List.Forall₂ (Member.Is names) ms xs → List.Forall₂ (Member.Is names) ms' xs' → xs'.map (·.ty) = xs.map (·.ty)
  | [], [], [], [], _, _, _ => rfl
  | _ :: _, _ :: _, _ :: _, _ :: _, .cons h hs, .cons hx hxs, .cons hx' hxs' => by
    rw [List.map_cons, List.map_cons, (hx.same h hx').2, Member.types_eq hs hxs hxs']

theorem FunctionTree.Is.exists_place {t : FunctionTree} {f : Function} (h : t.Is a names f) :
    ∃ l ∈ t.front, f.location = some l := by
  cases t
  obtain ⟨-, -, -, -, -, hplace⟩ := h
  exact ⟨_, List.mem_cons_self, hplace⟩

/-- Functions whose heads are alike have the same name and the same type. -/
theorem FunctionTree.Is.same {a' : Arena} {t t' : FunctionTree} {f f' : Function} (h : t.HeadAlike t')
    (hf : t.Is a names f) (hf' : t'.Is a' names f') : f'.name = f.name ∧ f'.arrowType = f.arrowType := by
  obtain ⟨name, ret, params, locals, body, place⟩ := t
  obtain ⟨name', ret', params', locals', body', place'⟩ := t'
  obtain ⟨rfl, rfl, hparams⟩ := h
  obtain ⟨hname, hret, hps, -⟩ := hf
  obtain ⟨hname', hret', hps', -⟩ := hf'
  refine ⟨Option.some.inj (hname'.symm.trans hname), ?_⟩
  rw [Function.arrowType, Function.arrowType, Member.types_eq hparams hps hps', hret.unique hret']

mutual

/-- The expressions of a tree fill the numbers from its first to its own. -/
theorem Tree.Stands.end_eq (hpost : a.Postordered) : ∀ {t : Tree} {e : ExprRef}, t.Stands a names e →
    e.index + 1 = a.first e.index + t.count
  | .node _ _ parts, e, ⟨x, hx, _, hp⟩ => by
    have hexpr : a.expr? e = some x := by rw [Arena.expr?, hx]; rfl
    have hparts := Tree.StandAll.end_eq hpost hp (hpost e x hexpr)
    rw [Tree.count]
    omega

theorem Tree.StandAll.end_eq (hpost : a.Postordered) : ∀ {ts : List Tree} {es : List ExprRef} {lo hi : Nat},
    Tree.StandAll a names ts es → a.Tiles lo es hi → hi = lo + Tree.countAll ts
  | [], [], _, _, _, htiles => by cases htiles; rfl
  | t :: ts, e :: es, lo, hi, ⟨ht, hts⟩, ⟨hfirst, _, hrest⟩ => by
    have hhead := ht.end_eq hpost
    have htail := Tree.StandAll.end_eq hpost hts hrest
    rw [Tree.countAll]
    omega

end

mutual

/-- The places of the references below an expression are those of its tree. -/
theorem Tree.Stands.refPlaces_eq (hpost : a.Postordered) : ∀ {t : Tree} {e : ExprRef}, t.Stands a names e →
    a.refPlaces e = t.places.map some
  | .node form place parts, e, ⟨x, hx, hf, hp⟩ => by
    have hrefers : x.refers = form.refers := by
      cases form <;> cases x <;> first | rfl | exact hf.elim
    rw [Syntax.refPlaces_eq hpost hx, hrefers, Tree.StandAll.refPlaces_eq hpost hp, Tree.places, List.map_append]
    cases form.refers <;> rfl

theorem Tree.StandAll.refPlaces_eq (hpost : a.Postordered) : ∀ {ts : List Tree} {es : List ExprRef},
    Tree.StandAll a names ts es → es.flatMap a.refPlaces = (Tree.placesAll ts).map some
  | [], [], _ => rfl
  | t :: ts, e :: es, ⟨ht, hts⟩ => by
    rw [List.flatMap_cons, ht.refPlaces_eq hpost, Tree.StandAll.refPlaces_eq hpost hts, Tree.placesAll, List.map_append]

end

theorem Tree.Stands.fill_eq (hpost : a.Postordered) {t : Tree} {e : ExprRef} {s q : Pos} (h : t.Stands a names e)
    (hat : a.Fill k s [e] q) : q.nodes = s.nodes + t.count := by
  obtain ⟨⟨hfirst, -, hend⟩, -⟩ := hat
  rw [← hfirst, ← h.end_eq hpost]
  exact hend.symm

theorem Member.locations_eq {ms : List Member} {xs : List TypedName} (h : List.Forall₂ (Member.Is names) ms xs) :
    xs.map (·.location) = (ms.map (·.place)).map some := by
  induction h with
  | nil => rfl
  | cons hx _ ih => rw [List.map_cons, List.map_cons, List.map_cons, hx.2.2, ih]

theorem DeclTree.StandAll.cut {ts ts' : List DeclTree} {t : DeclTree} {ds : List DeclRef}
    (h : DeclTree.StandAll a names (ts ++ t :: ts') ds) : ∃ front d back, ds = front ++ d :: back ∧
      DeclTree.StandAll a names ts front ∧ t.Stands a names d ∧ DeclTree.StandAll a names ts' back := by
  obtain ⟨front, _, hfront, hback, rfl⟩ := forall₂_split (DeclTree.standAll_iff.1 h)
  cases hback with
  | cons hd hback => exact ⟨front, _, _, rfl, DeclTree.standAll_iff.2 hfront, hd, DeclTree.standAll_iff.2 hback⟩

theorem FunctionTree.AreAll.cut {ts ts' : List FunctionTree} {t : FunctionTree} {fs : List Function}
    (h : FunctionTree.AreAll a names (ts ++ t :: ts') fs) : ∃ front f back, fs = front ++ f :: back ∧
      FunctionTree.AreAll a names ts front ∧ t.Is a names f ∧ FunctionTree.AreAll a names ts' back := by
  obtain ⟨front, _, hfront, hback, rfl⟩ := forall₂_split (FunctionTree.areAll_iff.1 h)
  cases hback with
  | cons hf hback => exact ⟨front, _, _, rfl, FunctionTree.areAll_iff.2 hfront, hf, FunctionTree.areAll_iff.2 hback⟩

/-- In the arena a declaration has as many expressions as its tree, and the places of its tree. -/
def DeclTree.Fits (a : Arena) (names : Names) (k n : Nat) : Prop :=
  ∀ {tree : DeclTree} {d : DeclRef} {s t : Pos}, tree.Stands a names d → a.DeclAt k n s d t →
    t.nodes = s.nodes + tree.count ∧ a.places n d = tree.places.map some

variable {n : Nat}

theorem DeclTree.Fits.row (h : DeclTree.Fits a names k n) : ∀ {trees : List DeclTree} {ds : List DeclRef} {s t : Pos},
    DeclTree.StandAll a names trees ds → Arena.Row (a.DeclAt k n) s ds t →
    t.nodes = s.nodes + DeclTree.countAll trees ∧ ds.flatMap (a.places n) = (DeclTree.placesAll trees).map some
  | [], [], _, _, _, hrow => by cases hrow; exact ⟨rfl, rfl⟩
  | tree :: trees, d :: ds, s, t, ⟨htree, htrees⟩, ⟨m, hd, hrow⟩ => by
    obtain ⟨hcount, hplaces⟩ := h htree hd
    obtain ⟨hcounts, hplacess⟩ := h.row htrees hrow
    refine ⟨?_, ?_⟩
    · rw [hcounts, hcount, DeclTree.countAll, Nat.add_assoc]
    · rw [List.flatMap_cons, hplaces, hplacess, DeclTree.placesAll, List.map_append]

theorem DeclTree.Fits.function (h : DeclTree.Fits a names k n) (hpost : a.Postordered) {tree : FunctionTree} {f : Function}
    {s t : Pos} (hf : tree.Is a names f) (hat : a.FunctionAt k (a.DeclAt k n) s f t) :
    t.nodes = s.nodes + tree.count ∧ a.functionPlaces (a.places n) f = tree.places.map some := by
  obtain ⟨name, ret, params, locals, body, place⟩ := tree
  obtain ⟨-, -, hparams, hlocals, hbody, hplace⟩ := hf
  obtain ⟨q, hrow, hfill⟩ := hat
  obtain ⟨hcount, hplaces⟩ := h.row hlocals hrow
  refine ⟨?_, ?_⟩
  · rw [hbody.fill_eq hpost hfill, hcount, FunctionTree.count, Nat.add_assoc]
  · simp only [Arena.functionPlaces, hplace, Member.locations_eq hparams, hplaces, hbody.refPlaces_eq hpost,
      FunctionTree.places, List.map_cons, List.map_append]

theorem DeclTree.Fits.methods (h : DeclTree.Fits a names k n) (hpost : a.Postordered) : ∀ {trees : List FunctionTree}
    {ms : List Function} {s t : Pos}, FunctionTree.AreAll a names trees ms →
    Arena.Row (a.FunctionAt k (a.DeclAt k n)) s ms t →
    t.nodes = s.nodes + FunctionTree.countAll trees ∧
      ms.flatMap (a.functionPlaces (a.places n)) = (FunctionTree.placesAll trees).map some
  | [], [], _, _, _, hrow => by cases hrow; exact ⟨rfl, rfl⟩
  | tree :: trees, m :: ms, s, t, ⟨htree, htrees⟩, ⟨q, hm, hrow⟩ => by
    obtain ⟨hcount, hplaces⟩ := h.function hpost htree hm
    obtain ⟨hcounts, hplacess⟩ := h.methods hpost htrees hrow
    refine ⟨?_, ?_⟩
    · rw [hcounts, hcount, FunctionTree.countAll, Nat.add_assoc]
    · rw [List.flatMap_cons, hplaces, hplacess, FunctionTree.placesAll, List.map_append]

/-- **Declarations fit their trees.** -/
theorem DeclTree.fits (hpost : a.Postordered) (n : Nat) : DeclTree.Fits a names k n := by
  induction n with
  | zero => exact fun _ hd => hd.elim
  | succ n ih =>
    intro tree d s t htree hd
    cases tree with
    | var name type init place =>
      obtain ⟨v, hx, -, -, hinit, hplace⟩ := htree
      have hcount := hinit.fill_eq hpost (hd.var hx)
      refine ⟨hcount, ?_⟩
      rw [Arena.places, hx, DeclTree.places, List.map_cons, ← hplace, ← hinit.refPlaces_eq hpost]
    | function tree =>
      obtain ⟨f, hx, hf⟩ := htree
      obtain ⟨hcount, hplaces⟩ := ih.function hpost hf (hd.function hx)
      refine ⟨hcount, ?_⟩
      rw [Arena.places, hx, DeclTree.places, ← hplaces]
    | cls name fields methods place =>
      obtain ⟨c, hx, -, hfields, hmethods, hplace⟩ := htree
      obtain ⟨hcount, hplaces⟩ := ih.methods hpost hmethods (hd.methods hx)
      refine ⟨hcount, ?_⟩
      rw [Arena.places, hx, DeclTree.places, List.map_cons, List.map_append, ← hplace, ← Member.locations_eq hfields,
        ← hplaces]

/-- A program has as many expressions as its tree. -/
theorem ProgramTree.Is.size_eq {p : Program} {t : ProgramTree} (hp : p.Placed) (h : t.Is names p) :
    p.arena.nodes.size = DeclTree.countAll t.declarations + t.body.count := by
  obtain ⟨m, hrow, hfill⟩ := hp.row
  have hfits : DeclTree.Fits p.arena names Grammar.nestingBound (p.arena.decls.size + 1) := DeclTree.fits hp.postordered _
  have hend := h.2.fill_eq hp.postordered hfill
  rwa [(hfits.row h.1 hrow).1, Nat.zero_add] at hend

/-- **The places of a program are those of its tree.** -/
theorem ProgramTree.Is.places_eq {p : Program} {t : ProgramTree} (hp : p.Placed) (h : t.Is names p) :
    p.places = t.places.map some := by
  obtain ⟨m, hrow, -⟩ := hp.row
  have hfits : DeclTree.Fits p.arena names Grammar.nestingBound (p.arena.decls.size + 1) := DeclTree.fits hp.postordered _
  rw [Program.places, (hfits.row h.1 hrow).2, h.2.refPlaces_eq hp.postordered, ProgramTree.places, List.map_append]

end Stands

/-! ## Texts -/

/-- The tree is written as the text. -/
def ProgramTree.WrittenAs (t : ProgramTree) (text : String) : Prop :=
  ∃ n tokens, (Cursor.ofString text).readAll = tokens.map .ok ∧ Whole n tokens t

variable {text : String} {base names : Names} {p : Program} {t : ProgramTree}

theorem ProgramTree.WrittenAs.is (ht : t.WrittenAs text) (h : Program.parse text base = (.ok p, names)) :
    t.Is names p := by
  obtain ⟨n, tokens, htokens, hwhole⟩ := ht
  exact is_of_whole h htokens hwhole

/-- Nothing is written at the same place twice, as far as 32 bits can count places. -/
theorem ProgramTree.WrittenAs.nodup (ht : t.WrittenAs text) (h : Program.parse text base = (.ok p, names))
    (hbytes : Position.bytes text.toList + 1 < UInt32.size) : t.places.Nodup := by
  obtain ⟨places, hplaces, hrises⟩ := rises_of_parse h hbytes
  rw [(ht.is h).places_eq (placed_of_parse h)] at hplaces
  obtain rfl : t.places = places := List.map_injective_iff.2 (fun _ _ => Option.some.inj) hplaces
  refine List.Pairwise.imp (fun {l l'} hahead heq => ?_) hrises
  rw [heq] at hahead
  exact UInt32.lt_irrefl _ hahead.1

end Syntax

end Fool
