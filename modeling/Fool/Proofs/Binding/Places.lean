import Fool.Proofs.Binding.Clean

/-!
# The places of declared names

In a program without faults no block declares a name twice, so that the place of a name is its position among the
declarations of its block: the parameters of a function count from 1 up, its local declarations and the declarations of
the program from -2 down, the fields of a class from -1 down and its methods from 0 up.
-/

namespace Fool

/-! ## Blocks of two parts -/

namespace Block

variable {b : Block} {xs ys : List Declared} {d : Declared} {slot : Bool} {i : Nat} (depth : Nat)

/-- The place of a declaration with `i` others of its sort before it. -/
def place (kind : ScopeKind) (slot : Bool) (i : Nat) : Int := if slot then firstSlot kind + i else firstPlace kind - i

theorem offset_eq_place {kind : ScopeKind} (h : (xs.map (·.name)).Nodup) :
    offset kind xs d = place kind d.kind.takesSlot (xs.countP fun d' => d'.kind.takesSlot == d.kind.takesSlot) := by
  unfold offset place
  rw [Declared.firsts_eq_self h]
  cases d.kind.takesSlot <;> simp

/-- Different names mean their declarations, which lie behind those of their sort that are declared before. -/
theorem meaning?_of_getElem? (h : (b.declared.map (·.name)).Nodup) (hd : b.declared[i]? = some d) :
    b.meaning? depth d.name = some ⟨d.kind, depth, place b.kind d.kind.takesSlot
      ((b.declared.take i).countP fun d' => d'.kind.takesSlot == d.kind.takesSlot), d.ty⟩ := by
  obtain ⟨hi, hget⟩ := List.getElem?_eq_some_iff.1 hd
  have hsplit : b.declared = b.declared.take i ++ d :: b.declared.drop (i + 1) := by
    rw [← hget, ← List.drop_eq_getElem_cons hi, List.take_append_drop]
  have hbefore : ((b.declared.take i).map (·.name)).Nodup := h.sublist ((List.take_sublist _ _).map _)
  rw [meaning?_of_nodup depth h hsplit, offset_eq_place hbefore]

/-- In the first part of a block lie declarations of one sort, one behind the other. -/
theorem meaning?_front (h : (b.declared.map (·.name)).Nodup) (hb : b.declared = xs ++ ys)
    (hxs : ∀ d ∈ xs, d.kind.takesSlot = slot) (hd : xs[i]? = some d) :
    b.meaning? depth d.name = some ⟨d.kind, depth, place b.kind slot i, d.ty⟩ := by
  have hi := (List.getElem?_eq_some_iff.1 hd).1
  have hget : b.declared[i]? = some d := by rw [hb, List.getElem?_append_left hi, hd]
  have hcount : ((b.declared.take i).countP fun d' => d'.kind.takesSlot == d.kind.takesSlot) = i := by
    rw [hb, List.take_append_of_le_length hi.le, List.countP_eq_length.2 fun d' hd' => ?_, List.length_take_of_le hi.le]
    rw [hxs d' (List.mem_of_mem_take hd'), hxs d (List.mem_of_getElem? hd), beq_self_eq_true]
  rw [meaning?_of_getElem? depth h hget, hcount, hxs d (List.mem_of_getElem? hd)]

/-- In the second part lie those of the other sort. -/
theorem meaning?_back (h : (b.declared.map (·.name)).Nodup) (hb : b.declared = xs ++ ys)
    (hxs : ∀ d ∈ xs, d.kind.takesSlot = !slot) (hys : ∀ d ∈ ys, d.kind.takesSlot = slot) (hd : ys[i]? = some d) :
    b.meaning? depth d.name = some ⟨d.kind, depth, place b.kind slot i, d.ty⟩ := by
  have hi := (List.getElem?_eq_some_iff.1 hd).1
  have hslot := hys d (List.mem_of_getElem? hd)
  have hget : b.declared[xs.length + i]? = some d := by
    rw [hb, List.getElem?_append_right (Nat.le_add_right _ _), Nat.add_sub_cancel_left, hd]
  have hfront : (xs.countP fun d' => d'.kind.takesSlot == slot) = 0 :=
    List.countP_eq_zero.2 fun d' hd' => by rw [hxs d' hd']; cases slot <;> decide
  have hback : ((ys.take i).countP fun d' => d'.kind.takesSlot == slot) = i := by
    rw [List.countP_eq_length.2 fun d' hd' => ?_, List.length_take_of_le hi.le]
    rw [hys d' (List.mem_of_mem_take hd'), beq_self_eq_true]
  rw [meaning?_of_getElem? depth h hget, hslot, hb, List.take_length_add_append, List.countP_append, hfront, hback,
    Nat.zero_add]

end Block

/-! ## Members -/

theorem Declared.takesSlot_members {kind : EntryKind} {xs : List TypedName} :
    ∀ d ∈ Declared.members kind xs, d.kind.takesSlot = kind.takesSlot := by
  intro d hd
  obtain ⟨x, -, rfl⟩ := List.mem_map.1 hd
  rfl

/-- A declaration as a declared name. -/
def Decl.declared : Decl → Declared
  | varDecl v => ⟨v.name, .var, v.ty.checked⟩
  | funDecl f => f.declared .func
  | classDecl c => c.declared

theorem Decl.takesSlot_declared (x : Decl) : x.declared.kind.takesSlot = false := by cases x <;> rfl

theorem Decl.name_declared (x : Decl) : x.declared.name = x.name := by cases x <;> rfl

namespace Class

variable {c : Class} {ms : List Function} {depth i : Nat}

theorem takesSlot_methods : ∀ d ∈ ms.map (·.declared .method), d.kind.takesSlot = true := by
  intro d hd
  obtain ⟨m, -, rfl⟩ := List.mem_map.1 hd
  rfl

/-- The fields of a class lie one below the other, the first at -1. -/
theorem meaning?_field (h : ((c.block ms).declared.map (·.name)).Nodup) {x : TypedName} (hx : c.fields[i]? = some x) :
    (c.block ms).meaning? depth x.name = some ⟨.field, depth, -(i + 1), x.ty.checked⟩ := by
  have hd : (Declared.members .field c.fields)[i]? = some ⟨x.name, .field, x.ty.checked⟩ := by
    rw [Declared.members, List.getElem?_map, hx]
    rfl
  have hplace : Block.place (.cls c.name) false i = -(i + 1) := by
    simp only [Block.place, Block.firstPlace, Bool.false_eq_true, if_false]
    omega
  exact (Block.meaning?_front depth (d := ⟨x.name, .field, x.ty.checked⟩) h rfl Declared.takesSlot_members hd).trans
    (by rw [← hplace]; rfl)

/-- The methods of a class lie one above the other, the first at 0. -/
theorem meaning?_method (h : ((c.block ms).declared.map (·.name)).Nodup) {m : Function} (hm : ms[i]? = some m) :
    (c.block ms).meaning? depth m.name = some ⟨.method, depth, i, m.arrowType.checked⟩ := by
  have hd : (ms.map (·.declared .method))[i]? = some (m.declared .method) := by
    rw [List.getElem?_map, hm]
    rfl
  have hplace : Block.place (.cls c.name) true i = i := by
    simp only [Block.place, Block.firstSlot, if_true]
    omega
  exact (Block.meaning?_back depth (d := m.declared .method) h rfl Declared.takesSlot_members takesSlot_methods hd).trans
    (by rw [← hplace]; rfl)

end Class

/-! ## Regions -/

namespace Program

variable {p : Program} {Γ : Context} {ds : List DeclRef} {body : ExprRef}

/-- Declarations stand behind the parameters of their function, and behind nothing at the outermost level. -/
theorem Region.exists_params (hr : p.Region Γ ds body) : ∃ blk outer params, Γ = blk :: outer ∧
    blk.declared = Declared.members .param params ∧ (blk.kind = .global ∨ blk.kind = .function) := by
  cases hr with
  | main => exact ⟨_, _, [], rfl, rfl, .inl rfl⟩
  | function _ _ => exact ⟨_, _, _, rfl, rfl, .inr rfl⟩
  | method _ _ _ _ => exact ⟨_, _, _, rfl, rfl, .inr rfl⟩

end Program

namespace Binder

variable {p : Program} {Γ : Context} {names : Names} {ds : List DeclRef} {body : ExprRef} {i : Nat}

/-- Each declaration is stored. -/
theorem Faultless.exists_decl? (h : Faultless p names) (hr : p.Region Γ ds body) {d : DeclRef} (hd : d ∈ ds) :
    ∃ x, p.arena.decl? d = some x := by
  obtain ⟨ds₁, ds₂, rfl⟩ := List.append_of_mem hd
  obtain ⟨n, s, q, t, hb⟩ := regionBound h.placed names hr
  obtain ⟨s', t', hat, -⟩ := hb.decl h.placed.postordered
  cases n with
  | zero => exact hat.elim
  | succ n => exact hat.exists_decl?

/-- Each declaration declares its name. -/
theorem Faultless.declares (h : Faultless p names) (hr : p.Region Γ ds body) {d : DeclRef} (hd : d ∈ ds) {x : Decl}
    (hx : p.arena.decl? d = some x) : p.arena.declares Γ.depth d = [x.declared] := by
  cases x with
  | varDecl v => exact Arena.declares_var hx _
  | funDecl f => exact Arena.declares_fun hx _
  | classDecl c => rw [Arena.declares_class hx, if_pos (h.depth_eq_zero hr hd hx)]; rfl

/-- Declarations declare one name each. -/
theorem Faultless.getElem?_declares (h : Faultless p names) (hr : p.Region Γ ds body) (i : Nat) :
    (ds.flatMap (p.arena.declares Γ.depth))[i]? = (ds[i]?.bind p.arena.decl?).map Decl.declared := by
  have hall : ∀ d ∈ ds, ∃ x, p.arena.decl? d = some x ∧ p.arena.declares Γ.depth d = [x.declared] := fun d hd =>
    let ⟨x, hx⟩ := h.exists_decl? hr hd
    ⟨x, hx, h.declares hr hd hx⟩
  clear h hr
  induction ds generalizing i with
  | nil => simp
  | cons d ds ih =>
    obtain ⟨x, hx, hdeclares⟩ := hall d List.mem_cons_self
    rw [List.flatMap_cons, hdeclares]
    cases i with
    | zero => simp [hx]
    | succ i => simpa using ih i fun d' hd' => hall d' (List.mem_cons_of_mem _ hd')

/-- The contexts behind declarations are clean. -/
theorem Faultless.clean_bind (h : Faultless p names) (hr : p.Region Γ ds body) : (Γ.bind p.arena ds).Clean := by
  obtain ⟨n, s, q, t, hb⟩ := regionBound h.placed names hr
  have hlt : body.index < p.arena.nodes.size := hb.fill.1.2.1
  exact h.clean (.body hr ((h.placed.postordered.mem_walk hlt).2 ⟨p.arena.first_le _, Nat.le_refl _⟩))

/-- Declarations take the places below each other, not those of parameters. -/
theorem Faultless.countP_declares (h : Faultless p names) (hr : p.Region Γ ds body) {ds₁ ds₂ : List DeclRef}
    (hds : ds = ds₁ ++ ds₂) : ((ds₁.flatMap (p.arena.declares Γ.depth)).countP fun D => D.kind.takesSlot == false) =
      ds₁.length := by
  have hall : ∀ d ∈ ds₁, ∃ x : Decl, p.arena.declares Γ.depth d = [x.declared] := fun d hd =>
    have hmem : d ∈ ds := hds ▸ List.mem_append_left _ hd
    let ⟨x, hx⟩ := h.exists_decl? hr hmem
    ⟨x, h.declares hr hmem hx⟩
  clear hds
  induction ds₁ with
  | nil => rfl
  | cons d ds₁ ih =>
    obtain ⟨x, hx⟩ := hall d List.mem_cons_self
    rw [List.flatMap_cons, List.countP_append, ih fun d' hd' => hall d' (List.mem_cons_of_mem _ hd'), hx,
      List.countP_singleton, x.takesSlot_declared, List.length_cons]
    simp only [beq_self_eq_true, if_true]
    omega

/-- The place of a declaration behind others. -/
theorem Faultless.offset_decl (h : Faultless p names) {blk : Block} {outer : Context} {ds₁ ds₂ : List DeclRef}
    {d : DeclRef} (hr : p.Region (blk :: outer) (ds₁ ++ d :: ds₂) body) (x : Decl) :
    Block.offset blk.kind (blk.declared ++ ds₁.flatMap (p.arena.declares (Context.depth (blk :: outer)))) x.declared =
      -(ds₁.length + 2) := by
  obtain ⟨blk', outer', params, heq, hparams, hkind⟩ := hr.exists_params
  obtain ⟨rfl, rfl⟩ := List.cons_eq_cons.1 heq
  have hdistinct := (h.clean_bind hr).distinct _ List.mem_cons_self
  rw [List.flatMap_append, ← List.append_assoc, List.map_append] at hdistinct
  have hfront : (Declared.members .param params).countP (fun D => D.kind.takesSlot == false) = 0 :=
    List.countP_eq_zero.2 fun D hD => by rw [Declared.takesSlot_members D hD]; decide
  rw [Block.offset_eq_place (List.nodup_append.1 hdistinct).1, x.takesSlot_declared, List.countP_append, hparams, hfront,
    h.countP_declares hr rfl]
  rcases hkind with hkind | hkind <;> rw [hkind, Block.place, Block.firstPlace] <;> simp <;> omega

/-- **The declarations of a program, a function or a method lie one below the other,** the first at -2. -/
theorem Faultless.lookup?_decl (h : Faultless p names) (hr : p.Region Γ ds body) {d : DeclRef} {x : Decl}
    (hd : ds[i]? = some d) (hx : p.arena.decl? d = some x) :
    (Γ.bind p.arena ds).lookup? x.name = some ⟨x.declared.kind, Γ.depth, -(i + 2), x.declared.ty⟩ := by
  obtain ⟨blk, outer, params, rfl, hparams, hkind⟩ := hr.exists_params
  have hclean := h.clean_bind hr
  have hget := h.getElem?_declares hr
  rw [Context.bind] at hclean ⊢
  generalize ds.flatMap (p.arena.declares (Context.depth (blk :: outer))) = Ds at hclean hget ⊢
  have hDs : ∀ D ∈ Ds, D.kind.takesSlot = false := fun D hD => by
    obtain ⟨j, hj⟩ := List.getElem?_of_mem hD
    rw [hget] at hj
    obtain ⟨y, -, rfl⟩ := Option.map_eq_some_iff.1 hj
    exact y.takesSlot_declared
  have hplaced : Ds[i]? = some x.declared := by rw [hget, hd, Option.bind_some, hx, Option.map_some]
  have hblock := hclean.distinct { blk with declared := blk.declared ++ Ds } List.mem_cons_self
  have hmeaning := Block.meaning?_back outer.length hblock (congrArg (· ++ Ds) hparams)
    Declared.takesSlot_members hDs hplaced
  have hplace : Block.place blk.kind false i = -(i + 2) := by
    rcases hkind with hkind | hkind <;> rw [hkind, Block.place, Block.firstPlace] <;> simp <;> omega
  rw [hplace, x.name_declared] at hmeaning
  rw [Context.declareAll, Context.lookup?, hmeaning, Option.some_or]
  rfl

/-- **The parameters of a function or a method lie one above the other,** the first at 1. -/
theorem Faultless.lookup?_param (h : Faultless p names) {f : Function} (hr : p.Region (f.block :: Γ) f.locals f.body)
    {x : TypedName} (hx : f.params[i]? = some x) :
    (Context.bind (f.block :: Γ) p.arena f.locals).lookup? x.name = some ⟨.param, Γ.length, i + 1, x.ty.checked⟩ := by
  have hclean := h.clean_bind hr
  rw [Context.bind] at hclean ⊢
  generalize f.locals.flatMap (p.arena.declares (Context.depth (f.block :: Γ))) = Ds at hclean ⊢
  have hblock := hclean.distinct { f.block with declared := f.block.declared ++ Ds } List.mem_cons_self
  have hget : (Declared.members .param f.params)[i]? = some ⟨x.name, .param, x.ty.checked⟩ := by
    rw [Declared.members, List.getElem?_map, hx]
    rfl
  have hmeaning := Block.meaning?_front Γ.length hblock rfl Declared.takesSlot_members hget
  have hplace : Block.place .function true i = i + 1 := by
    simp only [Block.place, Block.firstSlot, if_true]
    omega
  rw [Context.declareAll, Context.lookup?, hmeaning, Option.some_or, ← hplace]
  rfl

/-- The members of a class have different names. -/
theorem Faultless.distinct_members (h : Faultless p names) {d : DeclRef} (hd : d ∈ p.declarations) {c : Class}
    (hx : p.arena.decl? d = some (.classDecl c)) : ((c.block c.methods).declared.map (·.name)).Nodup := by
  obtain ⟨ds, ds', hds⟩ := List.append_of_mem hd
  obtain ⟨q, hq⟩ := regionBound_main h.placed names
  rw [hds] at hq
  obtain ⟨n, s, t, -, hleads, b, hmoment⟩ := hq.methods h.placed.postordered hx rfl
  obtain ⟨hat, -⟩ := hleads b hmoment.stands
  exact (hat.clean (List.prefix_nil.1 (h.errors ▸ hmoment.errors))).distinct _ List.mem_cons_self

/-- A class is known by its name. -/
theorem Faultless.class_eq (h : Faultless p names) {d d' : DeclRef} {c c' : Class} (hd : d ∈ p.declarations)
    (hx : p.arena.decl? d = some (.classDecl c)) (hd' : d' ∈ p.declarations)
    (hx' : p.arena.decl? d' = some (.classDecl c')) (hname : c.name = c'.name) : c = c' := by
  obtain ⟨i, hi⟩ := List.getElem?_of_mem hd
  obtain ⟨j, hj⟩ := List.getElem?_of_mem hd'
  have hr := Program.Region.main (p := p)
  have hget := h.getElem?_declares hr
  have hdistinct := (h.clean_bind hr).distinct _ List.mem_cons_self
  have hi' := hget i
  have hj' := hget j
  rw [hi, Option.bind_some, hx] at hi'
  rw [hj, Option.bind_some, hx'] at hj'
  have hlt := (List.getElem?_eq_some_iff.1 hi').1
  have hij : i = j := by
    refine (List.getElem?_inj (by simpa using hlt) hdistinct).1 ?_
    rw [List.nil_append, List.getElem?_map, List.getElem?_map, hi', hj']
    exact congrArg some hname
  subst hij
  obtain rfl := Option.some.inj (hi.symm.trans hj)
  cases hx.symm.trans hx'
  rfl

/-- The name of a class is not taken in front of it. -/
theorem Faultless.not_has (h : Faultless p names) {ds' : List DeclRef} {d : DeclRef} {c : Class}
    (hr : p.Region Γ (ds ++ d :: ds') body) (hx : p.arena.decl? d = some (.classDecl c)) :
    ¬(Γ.bind p.arena ds).Has c.name := by
  rintro ⟨blk, hblk, D, hD, hname⟩
  obtain ⟨b, outer, rfl⟩ := List.exists_cons_of_ne_nil hr.rooted.ne_nil
  cases hblk
  have hdistinct := (h.clean_bind hr).distinct _ List.mem_cons_self
  rw [List.flatMap_append, List.flatMap_cons, h.declares hr (List.mem_append_right _ List.mem_cons_self) hx,
    ← List.append_assoc, List.map_append] at hdistinct
  exact (List.nodup_append.1 hdistinct).2.2 D.name (List.mem_map_of_mem hD) c.name (by simp [Decl.declared, Class.declared])
    hname

/-- **Each class of the program is kept,** with the scope of its members. -/
theorem Faultless.get?_classes (h : Faultless p names) {d : DeclRef} (hd : d ∈ p.declarations) {c : Class}
    (hx : p.arena.decl? d = some (.classDecl c)) :
    (p.bind names).classes.get? c.name = some ⟨c.shape, (c.block c.methods).scope 1⟩ := by
  obtain ⟨ds, ds', hds⟩ := List.append_of_mem hd
  have hr := Program.Region.main (p := p)
  rw [hds] at hr
  obtain ⟨q, hq⟩ := regionBound_main h.placed names
  rw [hds] at hq
  obtain ⟨s, t, hat, hhappens⟩ := hq.decl h.placed.postordered
  have hne := Context.bind_ne_nil p.arena ds hq.nonempty
  have hdepth : (Context.bind [⟨.global, []⟩] p.arena ds).depth = 0 := Context.depth_bind _ _ _
  obtain ⟨declared, hfree, hrun⟩ := decl_class names p.arena.decls.size hx hne hdepth
  obtain rfl := hfree.2 (h.not_has hr hx)
  obtain ⟨b, hb⟩ := hhappens.congr fun b hb => hrun b hb.scopes
  have henter : Leads p (enterClass names c) (Context.bind [⟨.global, []⟩] p.arena ds)
      (c.block [] :: (Context.bind [⟨.global, []⟩] p.arena ds).declareAll [c.declared]) s.nodes s.nodes :=
    leads_enterClass c hne hdepth
  have hmethods : Leads p (methods p.arena names p.arena.decls.size c.methods)
      (c.block [] :: (Context.bind [⟨.global, []⟩] p.arena ds).declareAll [c.declared])
      (c.block c.methods :: (Context.bind [⟨.global, []⟩] p.arena ds).declareAll [c.declared]) s.nodes t.nodes :=
    leads_methods (t := ⟨t.nodes, d.index⟩) (leads_decl h.placed.postordered nestingBound_le _) h.placed.postordered
      nestingBound_le (exists_declared_class c hne) (fun _ hm => hm) (hat.methods hx)
  obtain ⟨hentered, -⟩ := henter b hb.stands
  obtain ⟨hinside, -⟩ := hmethods _ hentered
  obtain ⟨info, hinfo⟩ := Option.isSome_iff_exists.1 (get?_leaveClass hinside)
  have hkept : (p.bind names).classes.get? c.name = some info := hb.classes _ _ hinfo
  have hleave : Leads p (leaveClass c true) (c.block c.methods :: (Context.bind [⟨.global, []⟩] p.arena ds).declareAll [c.declared])
      ((Context.bind [⟨.global, []⟩] p.arena ds).declareAll [c.declared]) t.nodes t.nodes :=
    leads_leaveClass true (Context.declareAll_ne_nil _ hne) (by simpa using hdepth)
      (Context.mem_globals_of_depth hne hdepth List.mem_cons_self) hd hx
  obtain ⟨d', hd', c', hx', hname, -, rfl⟩ := (hleave _ hinside).1.classes _ _ hinfo
  obtain rfl := h.class_eq hd' hx' hd hx hname
  exact hkept

/-! ## All places -/

/-- When the expression is visited, the name has the entry, and references to the name inside it mean that. -/
def Assigns (p : Program) (names : Names) (Γ : Context) (whole : ExprRef) (name : Symbol) (entry : Entry) : Prop :=
  (∃ b, Moment p (bound p names) Γ (visit p.arena names whole) whole.index (whole.index + 1) b ∧
    b.scopes.lookup? name = some entry) ∧
  ∀ e ∈ p.arena.walk whole, (p.arena.expr? e = some (.name name) ∨ ∃ args, p.arena.expr? e = some (.call name args)) →
    (p.bind names).resolutions.get? e = some ⟨entry, Γ.depth, none⟩

/-- **The places that binding gives.** -/
structure Offsets (p : Program) (names : Names) : Prop where
  decl : ∀ {Γ : Context} {ds : List DeclRef} {body : ExprRef} {i : Nat} {d : DeclRef} {x : Decl}, p.Region Γ ds body →
    ds[i]? = some d → p.arena.decl? d = some x →
    Assigns p names (Γ.bind p.arena ds) body x.name ⟨x.declared.kind, Γ.depth, -(i + 2), x.declared.ty⟩
  param : ∀ {Γ : Context} {f : Function} {j : Nat} {x : TypedName}, p.Region (f.block :: Γ) f.locals f.body →
    f.params[j]? = some x →
    Assigns p names (Context.bind (f.block :: Γ) p.arena f.locals) f.body x.name ⟨.param, Γ.length, j + 1, x.ty.checked⟩
  field : ∀ {Γ : Context} {ds : List DeclRef} {body : ExprRef} {d : DeclRef} {c : Class} {i : Nat} {x : TypedName},
    p.Region Γ ds body → d ∈ ds → p.arena.decl? d = some (.classDecl c) → c.fields[i]? = some x →
    (p.bind names).classes.member? c.name x.name = some ⟨.field, 1, -(i + 1), x.ty.checked⟩
  method : ∀ {Γ : Context} {ds : List DeclRef} {body : ExprRef} {d : DeclRef} {c : Class} {i : Nat} {m : Function},
    p.Region Γ ds body → d ∈ ds → p.arena.decl? d = some (.classDecl c) → c.methods[i]? = some m →
    (p.bind names).classes.member? c.name m.name = some ⟨.method, 1, i, m.arrowType.checked⟩

/-- A name is assigned what it means behind the declarations. -/
theorem Faultless.assigns (h : Faultless p names) (hr : p.Region Γ ds body) {name : Symbol} {entry : Entry}
    (hlook : (Γ.bind p.arena ds).lookup? name = some entry) :
    Assigns p names (Γ.bind p.arena ds) body name entry := by
  obtain ⟨b, hb⟩ := happens_visit h.placed names (.body hr (p.arena.mem_walk_self body))
  refine ⟨⟨b, hb, by rw [hb.stands.scopes, Context.lookup?_scopes, hlook]⟩, fun e he hx => ?_⟩
  rw [get?_bind_site h.placed names (.body hr he) hx, hlook]
  rfl

/-- A class that is declared anywhere is a class of the program. -/
theorem Faultless.mem_declarations (h : Faultless p names) (hr : p.Region Γ ds body) {d : DeclRef} (hd : d ∈ ds) {c : Class}
    (hx : p.arena.decl? d = some (.classDecl c)) : d ∈ p.declarations := by
  obtain ⟨-, rfl, -⟩ := hr.eq_main (h.depth_eq_zero hr hd hx)
  exact hd

/-- The members of a class are found in the scope that is kept of it. -/
theorem Faultless.member?_classes (h : Faultless p names) {d : DeclRef} (hd : d ∈ p.declarations) {c : Class}
    (hx : p.arena.decl? d = some (.classDecl c)) (name : Symbol) :
    (p.bind names).classes.member? c.name name = (c.block c.methods).meaning? 1 name := by
  rw [ClassTable.member?, h.get?_classes hd hx, Option.bind_some, Block.get?_scope]

theorem Faultless.offsets (h : Faultless p names) : Offsets p names where
  decl hr hd hx := h.assigns hr (h.lookup?_decl hr hd hx)
  param hr hx := h.assigns hr (h.lookup?_param hr hx)
  field hr hd hx hi := by
    have hmem := h.mem_declarations hr hd hx
    rw [h.member?_classes hmem hx]
    exact Class.meaning?_field (h.distinct_members hmem hx) hi
  method hr hd hx hi := by
    have hmem := h.mem_declarations hr hd hx
    rw [h.member?_classes hmem hx]
    exact Class.meaning?_method (h.distinct_members hmem hx) hi

end Binder

end Fool
