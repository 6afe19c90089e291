import Fool.Proofs.Binding.Places

/-!
# Every reference is resolved

Without faults exactly the references of a program have a meaning (`bind_complete`), and what they mean is of the right
sort: a call of a method the method of the class that the type of the receiver names, `new` a global class, a name no
method, and a function only if it is global.
-/

namespace Fool

/-- Expressions that mean a declaration: names, calls, calls of methods, and `new`. -/
def Expr.IsReference : Expr → Prop
  | name _ | call .. | methodCall .. | new .. => True
  | _ => False

/-- What the declaration that an expression means has to be. -/
def Program.Suits (p : Program) (r : Resolution) : Expr → Prop
  | .name _ => r.method = none ∧ r.entry.kind ≠ .method ∧ (r.entry.kind = .func → r.entry.depth = 0)
  | .methodCall _ method _ => ∃ d ∈ p.declarations, ∃ (c : Class) (i : Nat) (f : Function),
      p.arena.decl? d = some (.classDecl c) ∧ r.entry.ty = .object c.name ∧ c.methods[i]? = some f ∧ f.name = method ∧
      r.method = some ⟨.method, 1, i, f.arrowType.checked⟩
  | .new _ _ => r.method = none ∧ r.entry.kind = .cls ∧ r.entry.depth = 0
  | _ => r.method = none

/-! ## What is global -/

namespace Context

variable {Γ : Context} {name : Symbol} {entry : Entry}

/-- What a declaration adds to the outermost block is what it declares. -/
theorem mem_of_mem_globals {Ds : List Declared} {D : Declared} (h : D ∈ (Γ.declareAll Ds).globals) :
    D ∈ Γ.globals ∨ D ∈ Ds := by
  cases Γ with
  | nil => exact .inl h
  | cons b Γ =>
    cases Γ with
    | nil => exact List.mem_append.1 h
    | cons b' Γ => exact .inl h

/-- A name of depth 0 means something in the outermost block. -/
theorem exists_global_of_lookup? (h : Γ.lookup? name = some entry) (hdepth : entry.depth = 0) :
    ∃ D ∈ Γ.globals, D.kind = entry.kind := by
  induction Γ with
  | nil => cases h
  | cons b Γ ih =>
    rw [lookup?] at h
    rcases Option.or_eq_some_iff.1 h with hb | ⟨-, hΓ⟩
    · obtain ⟨before, D, after, heq, -, -, rfl⟩ := Block.meaning?_eq_some.1 hb
      obtain rfl : Γ = [] := List.length_eq_zero_iff.1 hdepth
      have hmem : D ∈ b.declared := heq ▸ List.mem_append_right _ List.mem_cons_self
      exact ⟨D, hmem, rfl⟩
    · obtain ⟨D, hD, hkind⟩ := ih hΓ
      have hne : Γ ≠ [] := by
        rintro rfl
        cases hΓ
      exact ⟨D, by rwa [globals_cons b hne], hkind⟩

end Context

/-- No declaration declares a method. -/
theorem Arena.kind_of_declares {a : Arena} {depth : Nat} {d : DeclRef} {D : Declared} (h : D ∈ a.declares depth d) :
    D.kind ≠ .method := by
  unfold declares at h
  split at h
  · rw [List.mem_singleton.1 h]
    simp
  · rw [List.mem_singleton.1 h]
    simp [Function.declared]
  · split at h
    · rw [List.mem_singleton.1 h]
      simp [Class.declared]
    · cases h
  · cases h

namespace Program

variable {p : Program} {Γ : Context} {e : ExprRef}

theorem kind_of_bind {ds : List DeclRef} (h : ∀ D ∈ Γ.globals, D.kind ≠ .method) :
    ∀ D ∈ (Γ.bind p.arena ds).globals, D.kind ≠ .method := by
  intro D hD
  rcases Context.mem_of_mem_globals hD with hD | hD
  · exact h D hD
  · obtain ⟨d, -, hD⟩ := List.mem_flatMap.1 hD
    exact Arena.kind_of_declares hD

/-- Methods are declared in classes, never in the outermost block. -/
theorem Region.kind_of_globals {ds : List DeclRef} {body : ExprRef} (hr : p.Region Γ ds body) :
    ∀ D ∈ Γ.globals, D.kind ≠ .method := by
  have hadd {Γ : Context} {D' : Declared} (h : ∀ D ∈ Γ.globals, D.kind ≠ .method) (hD' : D'.kind ≠ .method) :
      ∀ D ∈ (Γ.declareAll [D']).globals, D.kind ≠ .method := fun D hD =>
    (Context.mem_of_mem_globals hD).elim (h D) fun hD => List.mem_singleton.1 hD ▸ hD'
  induction hr with
  | main => simp [Context.globals]
  | function hr _ ih =>
    rw [Context.globals_cons _ (Context.declareAll_ne_nil _ (Context.bind_ne_nil _ _ hr.rooted.ne_nil))]
    exact hadd (kind_of_bind ih) (by simp [Function.declared])
  | method hr _ _ _ ih =>
    rw [Context.globals_cons _ (List.cons_ne_nil _ _),
      Context.globals_cons _ (Context.declareAll_ne_nil _ (Context.bind_ne_nil _ _ hr.rooted.ne_nil))]
    exact hadd (kind_of_bind ih) (by simp [Class.declared])

theorem Site.kind_of_globals (hs : p.Site Γ e) : ∀ D ∈ Γ.globals, D.kind ≠ .method := by
  cases hs with
  | body hr _ | init hr _ _ => exact kind_of_bind hr.kind_of_globals

end Program

/-! ## What is resolved -/

namespace Binder

variable {p : Program} {Γ : Context} {names : Names} {e : ExprRef} {x : Expr}

/-- The table has room for every expression, and for nothing else. -/
theorem size_bound (h : p.Placed) (names : Names) :
    (bound p names).resolutions.cells.size = p.arena.nodes.size := by
  obtain ⟨q, hrow, hfill⟩ := h.row
  have hdecls : LeadsDecls p names Grammar.nestingBound (p.arena.decls.size + 1) :=
    leads_decl h.postordered nestingBound_le _
  have hleads := leads_region hdecls h.postordered nestingBound_le (List.cons_ne_nil ⟨.global, []⟩ []) (fun _ _ hd => hd) hrow hfill
  refine (hleads _ (at_start p)).2.size.trans ?_
  simp [start, Resolutions.blank]

/-- What is no reference gets no meaning. -/
theorem Faultless.get?_plain (h : Faultless p names) (hx : p.arena.expr? e = some x) (hplain : ¬x.IsReference) :
    (p.bind names).resolutions.get? e = none := by
  obtain ⟨Γ, hs⟩ := h.exists_site (Arena.lt_size_of_expr? hx)
  obtain ⟨b, hb⟩ := happens_visit h.placed names hs
  have hvisit : Binder.visit p.arena names e b = ((), b) := by
    rw [visit_eq hx]
    cases x <;> first | rfl | exact absurd trivial hplain
  rw [bind_eq]
  refine (hb.stays e (Nat.le_refl _) (Nat.lt_succ_self _)).trans ?_
  rw [hvisit]
  exact hb.fresh e (Nat.le_refl _) (Nat.lt_succ_self _)

/-- What is no expression of the program gets no meaning. -/
theorem Faultless.get?_none (h : Faultless p names) (hx : p.arena.expr? e = none) :
    (p.bind names).resolutions.get? e = none := by
  have hge : p.arena.nodes.size ≤ e.index := by
    by_contra hlt
    obtain ⟨x, hx'⟩ := Arena.exists_expr?_of_lt (Nat.lt_of_not_le hlt)
    rw [hx] at hx'
    cases hx'
  have hcells : (bound p names).resolutions.cells[e.index]? = none :=
    Array.getElem?_eq_none ((size_bound h.placed names).symm ▸ hge)
  rw [bind_eq, Resolutions.get?, hcells]
  rfl

/-- A method of a class is known by its position. -/
theorem Faultless.method_eq (h : Faultless p names) {d : DeclRef} (hd : d ∈ p.declarations) {c : Class}
    (hx : p.arena.decl? d = some (.classDecl c)) {ms ms' : List Function} (hms : c.methods = ms ++ ms')
    {method : Symbol} {m : Entry} (hm : (c.block ms).meaning? 1 method = some m) (hkind : m.kind = .method) :
    ∃ (i : Nat) (f : Function), c.methods[i]? = some f ∧ f.name = method ∧
      m = ⟨.method, 1, i, f.arrowType.checked⟩ := by
  obtain ⟨before, D, after, heq, -, hname, rfl⟩ := Block.meaning?_eq_some.1 hm
  have hD : D ∈ Declared.members .field c.fields ++ ms.map (·.declared .method) :=
    show D ∈ (c.block ms).declared from heq ▸ List.mem_append_right _ List.mem_cons_self
  rcases List.mem_append.1 hD with hD | hD
  · obtain ⟨y, -, rfl⟩ := List.mem_map.1 hD
    cases hkind
  · obtain ⟨f, hf, rfl⟩ := List.mem_map.1 hD
    obtain ⟨i, hi⟩ := List.getElem?_of_mem hf
    have hdistinct := h.distinct_members hd hx
    have hsub : (c.block ms).declared.Sublist (c.block c.methods).declared := by
      rw [hms]
      exact (List.sublist_append_left _ _).map _ |>.append_left _
    have hnodup : ((c.block ms).declared.map (·.name)).Nodup := hdistinct.sublist (hsub.map _)
    have hmeaning : (c.block ms).meaning? 1 f.name = _ := Class.meaning?_method hnodup hi
    have hname : f.name = method := hname
    rw [hname, hm] at hmeaning
    refine ⟨i, f, ?_, hname, Option.some.inj hmeaning⟩
    rw [hms, List.getElem?_append_left (List.getElem?_eq_some_iff.1 hi).1, hi]

/-- A reference has a meaning, and one that suits it. -/
theorem Faultless.suits (h : Faultless p names) (hx : p.arena.expr? e = some x) (hreference : x.IsReference) :
    ∃ r, (p.bind names).resolutions.get? e = some r ∧ p.Suits r x := by
  obtain ⟨Γ, hs⟩ := h.exists_site (Arena.lt_size_of_expr? hx)
  cases x with
  | name name =>
    obtain ⟨entry, hlook, hget, hglobal⟩ := h.name hs hx
    refine ⟨_, hget, rfl, fun hkind => ?_, fun hkind => hglobal (.inl hkind)⟩
    obtain ⟨D, hD, hDkind⟩ := Context.exists_global_of_lookup? hlook (hglobal (.inr hkind))
    exact hs.kind_of_globals D hD (hDkind.trans hkind)
  | call function args =>
    obtain ⟨entry, -, hget⟩ := h.call hs hx
    exact ⟨_, hget, rfl⟩
  | methodCall receiver method args =>
    obtain ⟨entry, m, d, c, ms, ms', -, hty, hd, hdecl, hms, hm, hkind, hget⟩ := h.methodCall hs hx
    obtain ⟨i, f, hf, hname, rfl⟩ := h.method_eq hd hdecl hms hm hkind
    exact ⟨_, hget, d, hd, c, i, f, hdecl, hty, hf, hname, rfl⟩
  | new name args =>
    obtain ⟨g, entry, -, hmeaning, hkind, hget⟩ := h.new hs hx
    obtain ⟨_, _, _, -, -, -, rfl⟩ := Block.meaning?_eq_some.1 hmeaning
    exact ⟨_, hget, rfl, hkind, rfl⟩
  | _ => exact hreference.elim

end Binder

/-- **Without faults exactly the references are resolved, and each to a declaration that suits it.** -/
theorem bind_complete {text : String} {names names' : Names} {p : Program}
    (h : Program.parse text names = (.ok p, names')) (ns : Names) (hclean : (p.bind ns).errors = []) :
    (∀ e, ((p.bind ns).resolutions.get? e).isSome ↔ ∃ x, p.arena.expr? e = some x ∧ x.IsReference) ∧
    ∀ e x r, p.arena.expr? e = some x → (p.bind ns).resolutions.get? e = some r → p.Suits r x := by
  have hfaultless : Binder.Faultless p ns := ⟨placed_of_parse h, hclean⟩
  have hreference : ∀ e r, (p.bind ns).resolutions.get? e = some r → ∃ x, p.arena.expr? e = some x ∧ x.IsReference := by
    intro e r hr
    cases hx : p.arena.expr? e with
    | none =>
      rw [hfaultless.get?_none hx] at hr
      cases hr
    | some x =>
      refine ⟨x, rfl, ?_⟩
      by_contra hplain
      rw [hfaultless.get?_plain hx hplain] at hr
      cases hr
  refine ⟨fun e => ⟨fun hsome => ?_, fun ⟨x, hx, href⟩ => ?_⟩, fun e x r hx hr => ?_⟩
  · obtain ⟨r, hr⟩ := Option.isSome_iff_exists.1 hsome
    exact hreference e r hr
  · obtain ⟨r, hr, -⟩ := hfaultless.suits hx href
    rw [hr]
    rfl
  · obtain ⟨y, hy, href⟩ := hreference e r hr
    obtain ⟨r', hr', hsuits⟩ := hfaultless.suits hx (Option.some.inj (hy.symm.trans hx) ▸ href)
    rwa [Option.some.inj (hr.symm.trans hr')]

/-- The tree of `let class C(v:int) { fun get:int() v; } var x:C = new C(35); in x.get();`. -/
def getterCall : Program where
  arena :=
    ⟨#[⟨.name ⟨1⟩, some ⟨1, 36, 35⟩⟩, ⟨.int 35, some ⟨1, 57, 56⟩⟩, ⟨.new ⟨0⟩ [⟨1⟩], some ⟨1, 55, 54⟩⟩,
        ⟨.methodCall ⟨3⟩ ⟨2⟩ [], some ⟨1, 65, 64⟩⟩],
      #[.classDecl ⟨⟨0⟩, [⟨⟨1⟩, .int, some ⟨1, 13, 12⟩⟩], [⟨⟨2⟩, .int, [], [], ⟨0⟩, some ⟨1, 22, 21⟩⟩], some ⟨1, 5, 4⟩⟩,
        .varDecl ⟨⟨3⟩, .object ⟨0⟩, ⟨2⟩, some ⟨1, 41, 40⟩⟩]⟩
  declarations := [⟨0⟩, ⟨1⟩]
  body := ⟨3⟩

theorem parse_getterCall :
    Program.parse "let class C(v:int) { fun get:int() v; } var x:C = new C(35); in x.get();" .empty =
      (.ok getterCall, ⟨#["C", "v", "get", "x"]⟩) := by
  decide +kernel

/-- The call of a method is resolved. -/
theorem bind_complete_getterCall : (getterCall.bind .empty).errors = [] ∧
    ∃ r, (getterCall.bind .empty).resolutions.get? ⟨3⟩ = some r ∧ getterCall.Suits r (.methodCall ⟨3⟩ ⟨2⟩ []) := by
  have hclean : (getterCall.bind .empty).errors = [] := by decide +kernel
  obtain ⟨hsome, hsuits⟩ := bind_complete parse_getterCall .empty hclean
  obtain ⟨r, hr⟩ := Option.isSome_iff_exists.1 ((hsome ⟨3⟩).2 ⟨_, rfl, trivial⟩)
  exact ⟨hclean, r, hr, hsuits ⟨3⟩ _ r rfl hr⟩

end Fool
