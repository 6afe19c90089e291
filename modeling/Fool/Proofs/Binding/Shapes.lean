import Fool.Proofs.Binding.Frame

/-!
# The shape of a class and its scope

A class is kept with its shape, which lists the types of its members as they are written, and with the scope that
declares them (`classes_forM`). The scope hands out the places -1, -2, … to the fields and 0, 1, … to the methods, each
once, and passes over a member whose name is taken (`ofKind_scope`). So the shape lists the types at the places of the
members just if no two members have the same name (`bind_shapes`); behind a name that comes again the lists are out of
step.
-/

namespace Fool

/-! ## Names that come first -/

namespace Declared

theorem firsts_sublist (ds : List Declared) : (firsts ds).Sublist ds := by
  induction ds with
  | nil => exact .slnil
  | cons d ds ih => exact (List.filter_sublist.trans ih).cons_cons d

theorem firsts_nodup (ds : List Declared) : ((firsts ds).map (·.name)).Nodup := by
  induction ds with
  | nil => exact List.nodup_nil
  | cons d ds ih =>
    rw [firsts, List.map_cons, List.nodup_cons]
    refine ⟨fun hmem => ?_, ih.sublist (List.filter_sublist.map _)⟩
    obtain ⟨d', hd', hname⟩ := List.mem_map.1 hmem
    simpa [hname] using (List.mem_filter.1 hd').2

/-- Every name comes first just if there are as many first names as names. -/
theorem nodup_iff_length_firsts {ds : List Declared} :
    (ds.map (·.name)).Nodup ↔ (firsts ds).length = ds.length := by
  constructor
  · intro h
    rw [firsts_eq_self h]
  · intro h
    rw [← (firsts_sublist ds).eq_of_length h]
    exact firsts_nodup ds

end Declared

/-! ## The places of members -/

/-- The entries of a kind in the order of their declaration. -/
def Scope.ofKind (s : Scope) (kind : EntryKind) : List (Symbol × Entry) := s.entries.filter (·.2.kind = kind)

namespace Block

/-- The place of a member behind `i` others of its kind. -/
def memberPlace (kind : EntryKind) (i : Nat) : Int := if kind.takesSlot then i else -(i : Int) - 1

variable {cls : Symbol} {depth : Nat} {ds : List Declared} {k : EntryKind}

/-- All that is declared is a field or a method. -/
def Members (ds : List Declared) : Prop := ∀ d ∈ ds, d.kind = .field ∨ d.kind = .method

/-- The place that comes next is counted over the members of the kind. -/
theorem Describes.nextOffset_member {s : Scope} (h : Describes s depth ⟨.cls cls, ds⟩) (hds : Members ds)
    (hk : k = .field ∨ k = .method) :
    s.nextOffset k = memberPlace k ((Declared.firsts ds).filter (·.kind = k)).length := by
  have hfirsts : Members (Declared.firsts ds) := fun d hd => hds d ((Declared.firsts_sublist ds).subset hd)
  rcases hk with rfl | rfl
  · have hcount : (Declared.firsts ds).countP (fun d => !d.kind.takesSlot) =
        ((Declared.firsts ds).filter (·.kind = .field)).length := by
      rw [List.countP_eq_length_filter]
      refine congrArg List.length (List.filter_congr fun d hd => ?_)
      rcases hfirsts d hd with hkind | hkind <;> rw [hkind] <;> rfl
    rw [← hcount, show s.nextOffset .field = s.nextDeclaration from rfl, h.nextDeclaration]
    simp only [firstPlace, memberPlace, EntryKind.takesSlot]
    simp
    omega
  · have hcount : (Declared.firsts ds).countP (fun d => d.kind.takesSlot) =
        ((Declared.firsts ds).filter (·.kind = .method)).length := by
      rw [List.countP_eq_length_filter]
      refine congrArg List.length (List.filter_congr fun d hd => ?_)
      rcases hfirsts d hd with hkind | hkind <;> rw [hkind] <;> rfl
    rw [← hcount, show s.nextOffset .method = s.nextSlot from rfl, h.nextSlot]
    simp [firstSlot, memberPlace, EntryKind.takesSlot]

/-- **The members of a kind have the places of their kind in turn,** those whose names were taken left out. -/
theorem ofKind_scope (hds : Members ds) (hk : k = .field ∨ k = .method) :
    (((Block.mk (.cls cls) ds).scope depth).ofKind k).map (fun x => (x.1, x.2.offset, x.2.ty)) =
      ((Declared.firsts ds).filter (·.kind = k)).zipIdx.map fun x => (x.1.name, memberPlace k x.2, x.1.ty) := by
  induction ds using List.reverseRecOn with
  | nil => rfl
  | append_singleton ds d ih =>
    have hfront : Members ds := fun d' hd' => hds d' (List.mem_append_left _ hd')
    have hdesc : Describes ((Block.mk (.cls cls) ds).scope depth) depth ⟨.cls cls, ds⟩ := describes_scope ds
    rw [scope_append]
    by_cases hd : (Block.mk (.cls cls) ds).Has d.name
    · rw [Scope.declare_taken fun he => meaning?_eq_none.1 ((hdesc.get? _).symm.trans he) hd,
        (Declared.firsts_append ds d).trans (if_pos hd)]
      exact ih hfront
    · rw [Scope.declare_free ((hdesc.get? _).trans (meaning?_eq_none.2 hd)),
        (Declared.firsts_append ds d).trans (if_neg hd), List.filter_append]
      simp only [Option.map_some, Option.getD_some, Scope.ofKind, List.filter_append, List.map_append,
        List.zipIdx_append]
      rw [← ih hfront]
      by_cases hkind : d.kind = k
      · subst hkind
        simp [Scope.ofKind, hdesc.nextOffset_member hfront hk]
      · simp [Scope.ofKind, hkind]

theorem kind_of_mem_scope (hds : Members ds) {x : Symbol × Entry}
    (hx : x ∈ ((Block.mk (.cls cls) ds).scope depth).entries) : x.2.kind = .field ∨ x.2.kind = .method := by
  induction ds using List.reverseRecOn with
  | nil => cases hx
  | append_singleton ds d ih =>
    have hfront : Members ds := fun d' hd' => hds d' (List.mem_append_left _ hd')
    rw [scope_append] at hx
    cases hfree : ((Block.mk (.cls cls) ds).scope depth).get? d.name with
    | some e =>
      rw [Scope.declare_taken (by rw [hfree]; exact nofun)] at hx
      exact ih hfront hx
    | none =>
      rw [Scope.declare_free hfree] at hx
      rcases List.mem_append.1 hx with hx | hx
      · exact ih hfront hx
      · rw [List.mem_singleton.1 hx]
        exact hds d (List.mem_append_right _ List.mem_cons_self)

end Block

/-! ## Classes -/

/-- The fields have the places -1, -2, … and the methods 0, 1, …, each once, and there is nothing else. -/
structure Scope.InTurn (s : Scope) : Prop where
  members : ∀ x ∈ s.entries, x.2.kind = .field ∨ x.2.kind = .method
  fields : (s.ofKind .field).map (·.2.offset) = (List.range (s.ofKind .field).length).map fun i : Nat => -(i : Int) - 1
  methods : (s.ofKind .method).map (·.2.offset) = (List.range (s.ofKind .method).length).map fun i : Nat => (i : Int)

/-- The shape lists the types of the members at their places, and no others. -/
structure ClassInfo.Agrees (info : ClassInfo) : Prop where
  field : ∀ x ∈ info.scope.ofKind .field, info.shape.fields[(-x.2.offset - 1).toNat]? = some x.2.ty
  method : ∀ x ∈ info.scope.ofKind .method, info.shape.methods[x.2.offset.toNat]? = some x.2.ty
  fields : info.shape.fields.length = (info.scope.ofKind .field).length
  methods : info.shape.methods.length = (info.scope.ofKind .method).length

namespace Class

variable (c : Class)

/-- The names of the members as they are written. -/
def memberNames : List Symbol := c.fields.map (·.name) ++ c.methods.map (·.name)

theorem members_block : Block.Members (c.block c.methods).declared := by
  intro d hd
  rcases List.mem_append.1 hd with hd | hd
  · obtain ⟨x, -, rfl⟩ := List.mem_map.1 hd
    exact .inl rfl
  · obtain ⟨m, -, rfl⟩ := List.mem_map.1 hd
    exact .inr rfl

theorem map_name_block : (c.block c.methods).declared.map (·.name) = c.memberNames := by
  simp only [block, memberNames, List.map_append, Declared.members, List.map_map]
  rfl

theorem filter_field_block : (c.block c.methods).declared.filter (·.kind = .field) = Declared.members .field c.fields := by
  simp [block, Declared.members, List.filter_append, Function.declared, List.filter_map, Function.comp_def]

theorem filter_method_block :
    (c.block c.methods).declared.filter (·.kind = .method) = c.methods.map (·.declared .method) := by
  simp [block, Declared.members, List.filter_append, Function.declared, List.filter_map, Function.comp_def]

variable {c}

theorem ofKind_block {k : EntryKind} (hk : k = .field ∨ k = .method) :
    (((c.block c.methods).scope 1).ofKind k).map (fun x => (x.1, x.2.offset, x.2.ty)) =
      ((Declared.firsts (c.block c.methods).declared).filter (·.kind = k)).zipIdx.map
        fun x => (x.1.name, Block.memberPlace k x.2, x.1.ty) :=
  Block.ofKind_scope c.members_block hk

theorem length_ofKind_block {k : EntryKind} (hk : k = .field ∨ k = .method) :
    (((c.block c.methods).scope 1).ofKind k).length =
      ((Declared.firsts (c.block c.methods).declared).filter (·.kind = k)).length := by
  simpa using congrArg List.length (ofKind_block (c := c) hk)

theorem offsets_block {k : EntryKind} (hk : k = .field ∨ k = .method) :
    (((c.block c.methods).scope 1).ofKind k).map (·.2.offset) =
      (List.range (((c.block c.methods).scope 1).ofKind k).length).map (Block.memberPlace k) := by
  have h := congrArg (List.map fun x => x.2.1) (ofKind_block (c := c) hk)
  simp only [List.map_map] at h
  refine h.trans ?_
  rw [length_ofKind_block hk, List.range_eq_range', ← List.zipIdx_map_snd, List.map_map]
  rfl

/-- **The members have their places in turn.** -/
theorem inTurn_block : ((c.block c.methods).scope 1).InTurn :=
  ⟨fun _ hx => Block.kind_of_mem_scope c.members_block hx, offsets_block (.inl rfl), offsets_block (.inr rfl)⟩

/-- A member has the type that is listed at its place, if no name comes twice. -/
theorem type_of_mem_ofKind (h : c.memberNames.Nodup) {k : EntryKind} (hk : k = .field ∨ k = .method)
    {x : Symbol × Entry} (hx : x ∈ ((c.block c.methods).scope 1).ofKind k) : ∃ i : Nat,
    x.2.offset = Block.memberPlace k i ∧
      (((c.block c.methods).declared.filter (·.kind = k)).map (·.ty))[i]? = some x.2.ty := by
  have hmem := List.mem_map_of_mem (f := fun x => (x.1, x.2.offset, x.2.ty)) hx
  rw [ofKind_block hk, Declared.firsts_eq_self (c.map_name_block ▸ h)] at hmem
  obtain ⟨⟨d, i⟩, hd, heq⟩ := List.mem_map.1 hmem
  rw [List.mem_zipIdx_iff_getElem?] at hd
  simp only [Prod.mk.injEq] at heq
  refine ⟨i, heq.2.1.symm, ?_⟩
  rw [List.getElem?_map, hd, Option.map_some, heq.2.2]

/-- **The shape agrees with the scope just if no two members have the same name.** -/
theorem agrees_iff : ClassInfo.Agrees ⟨c.shape, (c.block c.methods).scope 1⟩ ↔ c.memberNames.Nodup := by
  have hfields : (c.shape.fields : List CheckedType) = (Declared.members .field c.fields).map (·.ty) := by
    simp [shape, Declared.members]
  have hmethods : (c.shape.methods : List CheckedType) = (c.methods.map (·.declared .method)).map (·.ty) := by
    simp [shape, Function.declared]
  constructor
  · intro h
    have hlen : (Declared.firsts (c.block c.methods).declared).length = (c.block c.methods).declared.length := by
      have hsplit : ∀ ds : List Declared, Block.Members ds →
          ds.length = (ds.filter (·.kind = .field)).length + (ds.filter (·.kind = .method)).length := by
        intro ds hds
        rw [← List.countP_eq_length_filter, ← List.countP_eq_length_filter, List.length_eq_countP_add_countP (·.kind = .field)]
        refine congrArg _ (List.countP_congr fun d hd => ?_)
        rcases hds d hd with hkind | hkind <;> simp [hkind]
      have hsub := Declared.firsts_sublist (c.block c.methods).declared
      rw [hsplit _ fun d hd => c.members_block d (hsub.subset hd), hsplit _ c.members_block, filter_field_block,
        filter_method_block, ← length_ofKind_block (.inl rfl), ← length_ofKind_block (.inr rfl), ← h.fields, ← h.methods,
        hfields, hmethods, List.length_map, List.length_map]
    rw [← map_name_block]
    exact Declared.nodup_iff_length_firsts.2 hlen
  · intro h
    have hself := Declared.firsts_eq_self (c.map_name_block ▸ h)
    refine ⟨fun x hx => ?_, fun x hx => ?_, ?_, ?_⟩
    · obtain ⟨i, hi, hty⟩ := type_of_mem_ofKind h (.inl rfl) hx
      rw [filter_field_block, ← hfields] at hty
      have hindex : (-Block.memberPlace .field i - 1).toNat = i := by
        simp only [Block.memberPlace, EntryKind.takesSlot, Bool.false_eq_true, if_false]
        omega
      rw [← hty, hi, hindex]
    · obtain ⟨i, hi, hty⟩ := type_of_mem_ofKind h (.inr rfl) hx
      rw [filter_method_block, ← hmethods] at hty
      rw [← hty, hi]
      rfl
    · rw [length_ofKind_block (.inl rfl), hself, filter_field_block, hfields, List.length_map]
    · rw [length_ofKind_block (.inr rfl), hself, filter_method_block, hmethods, List.length_map]

end Class

/-! ## The classes of a program -/

namespace Binder

variable {a : Arena} {names : Names} {n : Nat}

/-- Global declarations put classes that they declare into the table, with their shapes and their scopes. -/
theorem classes_forM : ∀ (ds : List DeclRef) (b : Binder), b.scopes.stack.length = 1 → ∀ {name : Symbol} {info : ClassInfo},
    (ds.forM (decl a names (n + 1)) b).2.classes.get? name = some info → b.classes.get? name = some info ∨
      ∃ d ∈ ds, ∃ c, a.decl? d = some (.classDecl c) ∧ c.name = name ∧ info = ⟨c.shape, (c.block c.methods).scope 1⟩
  | [], _, _, _, _, h => .inl h
  | d :: ds, b, hlen, name, info, h => by
    have hne : b.scopes.stack ≠ [] := List.length_pos_iff.1 (by omega)
    have hd : Outcome a d b (decl a names (n + 1) d b).2 := decl_outcome n d b hne
    have hlen' : (decl a names (n + 1) d b).2.scopes.stack.length = 1 := by
      rw [hd.scopes, (b.scopes.within_foldl _).length, hlen]
    rcases classes_forM ds _ hlen' h with hold | ⟨d', hd', hclass⟩
    · rcases hd.classes with hsame | ⟨c, hx, -, -, hnew⟩
      · exact .inl (hsame ▸ hold)
      · rw [hnew, ClassTable.get?_insertNew, Option.or_eq_some_iff] at hold
        rcases hold with hold | ⟨-, hold⟩
        · exact .inl hold
        · split at hold
          · cases hold
            exact .inr ⟨d, List.mem_cons_self, c, hx, ‹_›, rfl⟩
          · cases hold
    · exact .inr ⟨d', List.mem_cons_of_mem _ hd', hclass⟩

end Binder

/-- **The classes that binding gives.** Whatever faults there are, a class has the shape that it is written with. Its
fields have the places -1, -2, … and its methods 0, 1, …, each once. The shape lists the types at these places, and no
others, just if no two members have the same name. -/
theorem bind_shapes (p : Program) (names : Names) {name : Symbol} {info : ClassInfo}
    (h : (p.bind names).classes.get? name = some info) :
    ∃ d ∈ p.declarations, ∃ c, p.arena.decl? d = some (.classDecl c) ∧ c.name = name ∧ info.shape = c.shape ∧
      info.scope.InTurn ∧ (info.Agrees ↔ c.memberNames.Nodup) := by
  have hbody := (Binder.expr_frames p.arena names Binder.maxNesting p.body
    (p.declarations.forM (Binder.decl p.arena names (p.arena.decls.size + 1))
      { Binder.start p.arena.nodes.size with scopes := Scopes.empty.push (.empty .global) }).2).classes
  have hclasses : (p.bind names).classes = (p.declarations.forM (Binder.decl p.arena names (p.arena.decls.size + 1))
      { Binder.start p.arena.nodes.size with scopes := Scopes.empty.push (.empty .global) }).2.classes := hbody
  rw [hclasses] at h
  obtain hnone | ⟨d, hd, c, hx, hname, rfl⟩ := Binder.classes_forM p.declarations _ rfl h
  · cases hnone
  · exact ⟨d, hd, c, hx, hname, rfl, Class.inTurn_block, Class.agrees_iff⟩

/-- The program `let class C(a:int, a:bool, b:int) {} in 0;`. -/
def Program.repeatedField : Program where
  arena :=
    { nodes := #[⟨.int 0, none⟩]
      decls := #[.classDecl ⟨⟨0⟩, [⟨⟨1⟩, .int, none⟩, ⟨⟨1⟩, .bool, none⟩, ⟨⟨2⟩, .int, none⟩], [], none⟩] }
  declarations := [⟨0⟩]
  body := ⟨0⟩

/-- The type of `b`, whose place is -2, is listed behind that of the second `a`. -/
theorem bind_shapes_repeatedField : ∃ info, (Program.repeatedField.bind .empty).classes.get? ⟨0⟩ = some info ∧
    info.scope.InTurn ∧ ¬info.Agrees ∧ info.shape.fields[1]? = some .bool ∧
    info.scope.get? ⟨2⟩ = some ⟨.field, 1, -2, .int⟩ := by
  refine ⟨_, rfl, ?_⟩
  obtain ⟨d, hd, c, hx, -, -, hturn, hagrees⟩ := bind_shapes Program.repeatedField .empty
    (show (Program.repeatedField.bind .empty).classes.get? ⟨0⟩ = some _ from rfl)
  cases List.mem_singleton.1 hd
  cases hx
  exact ⟨hturn, fun h => absurd (hagrees.1 h) (by decide), rfl, rfl⟩

end Fool
