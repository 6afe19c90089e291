import Fool.Proofs.Binding.Lexical

/-!
# Programs without faults

In a program that binds without a fault every context is clean, no class is misplaced, and every reference has a
meaning: a name and a call the declaration that the context gives them, a call of a method the method of the class of
its receiver, and `new` the global class.
-/

namespace Fool

/-- In a block without duplicates every declaration is what its name means. -/
theorem Block.meaning?_of_nodup {b : Block} (depth : Nat) {before after : List Declared} {d : Declared}
    (h : (b.declared.map (·.name)).Nodup) (heq : b.declared = before ++ d :: after) :
    b.meaning? depth d.name = some ⟨d.kind, depth, Block.offset b.kind before d, d.ty⟩ := by
  refine Block.meaning?_eq_some.2 ⟨before, d, after, heq, fun d' hd' hname => ?_, rfl, rfl⟩
  rw [heq, List.map_append, List.map_cons] at h
  exact (List.nodup_append.1 h).2.2 d'.name (List.mem_map_of_mem hd') d.name List.mem_cons_self hname

/-- The open scope of a class is that of a block of the context. -/
theorem Context.classScope?_scopes {cls : Symbol} {s : Scope} : ∀ {Γ : Context}, Γ.scopes.classScope? cls = some s →
    ∃ inner blk outer, Γ = inner ++ blk :: outer ∧ blk.kind = .cls cls ∧ s = blk.scope outer.length
  | [], h => by cases h
  | blk :: Γ, h => by
    unfold Scopes.classScope? scopes stack at h
    rw [List.find?_cons] at h
    split at h
    · rename_i hkind
      cases h
      exact ⟨[], blk, Γ, rfl, by simpa using hkind, rfl⟩
    · obtain ⟨inner, blk', outer, rfl, hblk'⟩ := Context.classScope?_scopes (Γ := Γ) h
      exact ⟨blk :: inner, blk', outer, rfl, hblk'⟩

namespace Program

variable {p : Program} {Γ : Context}

/-- At the outermost level stands only the program as a whole. -/
theorem Region.eq_main {ds : List DeclRef} {body : ExprRef} (hr : p.Region Γ ds body) (hdepth : Γ.depth = 0) :
    Γ = [⟨.global, []⟩] ∧ ds = p.declarations ∧ body = p.body := by
  cases hr with
  | main => exact ⟨rfl, rfl, rfl⟩
  | function hr _ =>
    have hpos := List.length_pos_of_ne_nil hr.rooted.ne_nil
    simp only [Context.depth, Context.bind, List.length_cons, Context.length_declareAll] at hdepth
    omega
  | method hr _ _ _ => simp [Context.depth] at hdepth

/-- The block of a class around a place holds its fields and its methods up to the place. -/
def ClassBlock (p : Program) (blk : Block) (cls : Symbol) : Prop :=
  ∃ d ∈ p.declarations, ∃ c ms ms', p.arena.decl? d = some (.classDecl c) ∧ c.name = cls ∧ c.methods = ms ++ ms' ∧
    blk = c.block ms

/-- Declarations stand in functions or at the outermost level, never right in a class. -/
theorem Region.head_not_class {ds : List DeclRef} {body : ExprRef} (hr : p.Region Γ ds body) :
    ∀ blk ∈ Γ.head?, ∀ cls, blk.kind ≠ .cls cls := by
  cases hr <;> simp [Function.block]

/-- The block of a class that is around a place is not the one in which something is declared. -/
theorem split_of_declareAll {ds : List Declared} (hhead : ∀ blk ∈ Γ.head?, ∀ cls, blk.kind ≠ .cls cls) {blk : Block}
    {inner outer : Context} {cls : Symbol} (hkind : blk.kind = .cls cls) (h : Γ.declareAll ds = inner ++ blk :: outer) :
    ∃ inner', Γ = inner' ++ blk :: outer := by
  cases Γ with
  | nil => simp [Context.declareAll] at h
  | cons b Γ =>
    cases inner with
    | nil =>
      obtain ⟨rfl, rfl⟩ := List.cons_eq_cons.1 h
      exact absurd hkind (hhead b rfl cls)
    | cons b' inner =>
      obtain ⟨-, rfl⟩ := List.cons_eq_cons.1 h
      exact ⟨b :: inner, rfl⟩

/-- The block of a class stands right in the outermost one. -/
theorem Region.classBlock {ds : List DeclRef} {body : ExprRef} (hr : p.Region Γ ds body) {inner outer : Context}
    {blk : Block} {cls : Symbol} (hΓ : Γ = inner ++ blk :: outer) (hkind : blk.kind = .cls cls) :
    p.ClassBlock blk cls ∧ outer.length = 1 := by
  induction hr generalizing inner with
  | main =>
    cases inner with
    | nil =>
      obtain ⟨rfl, -⟩ := List.cons_eq_cons.1 hΓ
      cases hkind
    | cons b inner => simp at hΓ
  | function hr _ ih =>
    cases inner with
    | nil =>
      obtain ⟨rfl, -⟩ := List.cons_eq_cons.1 hΓ
      cases hkind
    | cons b inner =>
      obtain ⟨-, hΓ⟩ := List.cons_eq_cons.1 hΓ
      rw [Context.bind, ← Context.declareAll_append] at hΓ
      obtain ⟨inner', hΓ'⟩ := split_of_declareAll hr.head_not_class hkind hΓ
      exact ih hΓ'
  | @method Γ ds ds' d body c ms ms' m hr hx hdepth hms ih =>
    rcases inner with _ | ⟨b, _ | ⟨b', inner⟩⟩
    · obtain ⟨rfl, -⟩ := List.cons_eq_cons.1 hΓ
      cases hkind
    · obtain ⟨-, hΓ⟩ := List.cons_eq_cons.1 hΓ
      obtain ⟨rfl, rfl⟩ := List.cons_eq_cons.1 hΓ
      cases hkind
      obtain ⟨rfl, hds, -⟩ := hr.eq_main hdepth
      exact ⟨⟨_, hds ▸ List.mem_append_right _ List.mem_cons_self, _, _, _, hx, rfl, hms.trans (List.append_cons _ _ _),
        rfl⟩, by simp [Context.bind]⟩
    · obtain ⟨-, hΓ⟩ := List.cons_eq_cons.1 hΓ
      obtain ⟨-, hΓ⟩ := List.cons_eq_cons.1 hΓ
      rw [Context.bind, ← Context.declareAll_append] at hΓ
      obtain ⟨inner', hΓ'⟩ := split_of_declareAll hr.head_not_class hkind hΓ
      exact ih hΓ'

theorem Site.classBlock {e : ExprRef} (hs : p.Site Γ e) {inner outer : Context} {blk : Block} {cls : Symbol}
    (hΓ : Γ = inner ++ blk :: outer) (hkind : blk.kind = .cls cls) : p.ClassBlock blk cls ∧ outer.length = 1 := by
  cases hs with
  | body hr _ | init hr _ _ =>
    obtain ⟨inner', hΓ'⟩ := split_of_declareAll hr.head_not_class hkind hΓ
    exact hr.classBlock hΓ' hkind

end Program

namespace Binder

variable {p : Program} {Γ : Context} {names : Names} {e : ExprRef}

/-- The program has been read, and binding finds no fault in it. -/
structure Faultless (p : Program) (names : Names) : Prop where
  placed : p.Placed
  errors : (bound p names).errors = []

/-- At every site is a moment at which nothing has been reported, and nothing is. -/
theorem Faultless.visit (h : Faultless p names) (hs : p.Site Γ e) : ∃ b, At p Γ b ∧ Γ.Clean ∧
    (Binder.visit p.arena names e b).2.errors = [] ∧ (e.index < p.arena.nodes.size → e.index < b.resolutions.cells.size) ∧
    (p.bind names).resolutions.get? e = (Binder.visit p.arena names e b).2.resolutions.get? e := by
  obtain ⟨b, hb⟩ := happens_visit h.placed names hs
  have hempty : (Binder.visit p.arena names e b).2.errors = [] := List.prefix_nil.1 (h.errors ▸ hb.errors)
  have hbefore : b.errors = [] := List.prefix_nil.1 (hempty ▸ (touches_visit p.arena e b).errors)
  exact ⟨b, hb.stands, hb.stands.clean hbefore, hempty, fun hlt => hb.size.symm ▸ hlt,
    hb.stays e (Nat.le_refl _) (Nat.lt_succ_self _)⟩

/-- The contexts of a faultless program are clean. -/
theorem Faultless.clean (h : Faultless p names) (hs : p.Site Γ e) : Γ.Clean := by
  obtain ⟨b, -, hclean, -⟩ := h.visit hs
  exact hclean

/-- Classes are declared at the outermost level. -/
theorem Faultless.depth_eq_zero (h : Faultless p names) {ds : List DeclRef} {d : DeclRef} {body : ExprRef} {c : Class}
    (hr : p.Region Γ ds body) (hd : d ∈ ds) (hx : p.arena.decl? d = some (.classDecl c)) : Γ.depth = 0 := by
  obtain ⟨ds₁, ds₂, rfl⟩ := List.append_of_mem hd
  obtain ⟨n, s, q, t, hb⟩ := regionBound h.placed names hr
  obtain ⟨s', t', hat, b, hmoment⟩ := hb.decl h.placed.postordered
  have hempty := List.prefix_nil.1 (h.errors ▸ hmoment.errors)
  cases n with
  | zero => exact hat.elim
  | succ n =>
    by_contra hdepth
    rw [decl_classDecl hx, if_neg (by rw [hmoment.stands.scopes, Context.depth_scopes, Context.depth_bind]; exact hdepth)]
      at hempty
    simp at hempty

theorem Faultless.exists_site (h : Faultless p names) (hlt : e.index < p.arena.nodes.size) : ∃ Γ, p.Site Γ e := by
  refine (h.placed.site_or_misplaced hlt).resolve_right ?_
  rintro ⟨Γ, ds, body, d, c, w, hr, hd, hx, hdepth, -⟩
  exact hdepth (h.depth_eq_zero hr hd hx)

/-! ## Names and calls -/

/-- A name has a meaning; a function that it means is global. -/
theorem Faultless.name (h : Faultless p names) (hs : p.Site Γ e) {name : Symbol}
    (hx : p.arena.expr? e = some (.name name)) :
    ∃ entry, Γ.lookup? name = some entry ∧ (p.bind names).resolutions.get? e = some ⟨entry, Γ.depth, none⟩ ∧
      (entry.kind = .func ∨ entry.kind = .method → entry.depth = 0) := by
  have hget := get?_bind_site h.placed names hs (Or.inl hx)
  obtain ⟨b, hb, -, hempty, -, -⟩ := h.visit hs
  have hlook := Γ.lookup?_scopes name
  rw [← hb.scopes] at hlook
  rw [visit_eq hx] at hempty
  simp only [refer, resolveValue, bind_run] at hempty
  cases hl : b.scopes.lookup? name with
  | none =>
    rw [resolveName_none hl] at hempty
    simp at hempty
  | some entry =>
    rw [resolveName_some hl] at hempty
    rw [← hlook, hl] at hget
    refine ⟨entry, hlook.symm.trans hl, hget, fun hkind => ?_⟩
    by_contra hdepth
    have hcond : (entry.kind = .func ∨ entry.kind = .method) ∧ 0 < entry.depth := ⟨hkind, Nat.pos_of_ne_zero hdepth⟩
    simp only [hcond, and_self, if_true] at hempty
    simp at hempty

/-- A call has a meaning. -/
theorem Faultless.call (h : Faultless p names) (hs : p.Site Γ e) {name : Symbol} {args : List ExprRef}
    (hx : p.arena.expr? e = some (.call name args)) :
    ∃ entry, Γ.lookup? name = some entry ∧ (p.bind names).resolutions.get? e = some ⟨entry, Γ.depth, none⟩ := by
  have hget := get?_bind_site h.placed names hs (Or.inr ⟨args, hx⟩)
  obtain ⟨b, hb, -, hempty, -, -⟩ := h.visit hs
  have hlook := Γ.lookup?_scopes name
  rw [← hb.scopes] at hlook
  rw [visit_eq hx] at hempty
  simp only [refer, bind_run] at hempty
  cases hl : b.scopes.lookup? name with
  | none =>
    rw [resolveName_none hl] at hempty
    simp at hempty
  | some entry =>
    rw [← hlook, hl] at hget
    exact ⟨entry, hlook.symm.trans hl, hget⟩

/-! ## Classes -/

/-- `new` means the global class. -/
theorem Faultless.new (h : Faultless p names) (hs : p.Site Γ e) {name : Symbol} {args : List ExprRef}
    (hx : p.arena.expr? e = some (.new name args)) :
    ∃ g entry, Γ.getLast? = some g ∧ g.meaning? 0 name = some entry ∧ entry.kind = .cls ∧
      (p.bind names).resolutions.get? e = some ⟨entry, Γ.depth, none⟩ := by
  obtain ⟨b, hb, -, hempty, hsize, hget⟩ := h.visit hs
  have hclass := Γ.globalClass?_scopes name
  rw [← hb.scopes] at hclass
  rw [visit_eq hx] at hempty hget
  simp only [refer, resolveNew, bind_run, get_run] at hempty hget
  cases hl : b.scopes.globalClass? name with
  | none =>
    rw [hl] at hempty
    simp at hempty
  | some entry =>
    rw [hl] at hget hclass
    obtain ⟨hentry, hkind⟩ := Option.filter_eq_some_iff.1 hclass.symm
    obtain ⟨g, hg, hm⟩ := Option.bind_eq_some_iff.1 hentry
    refine ⟨g, entry, hg, hm, by simpa using hkind, ?_⟩
    rw [hget]
    simp only [resolve_run]
    rw [Resolutions.get?_set, if_pos ⟨rfl, hsize (Arena.lt_size_of_expr? hx)⟩, hb.scopes, Context.depth_scopes]


/-- A declared class is known. -/
theorem At.knowsClass {b : Binder} (h : At p Γ b) (hclean : Γ.Clean) {c : Symbol} (hc : Γ.Knows c) :
    b.knowsClass c = true := by
  obtain ⟨d, hd, hname, hkind⟩ := hc
  have hglobal : (b.scopes.globalClass? c).isSome = true := by
    rw [h.scopes, Context.globalClass?_scopes]
    unfold Context.globals at hd
    cases hg : Γ.getLast? with
    | none => rw [hg] at hd; cases hd
    | some g =>
      rw [hg] at hd
      have hmem : g ∈ Γ := List.mem_of_getLast? hg
      obtain ⟨before, after, heq⟩ := List.append_of_mem hd
      have hmeaning := Block.meaning?_of_nodup 0 (hclean.distinct g hmem) heq
      rw [hname] at hmeaning
      simp [hmeaning, hkind]
  simp only [Binder.knowsClass, hglobal, Bool.or_true]

/-- A method that binding finds in a class is declared in it. -/
theorem At.member {b : Binder} (h : At p Γ b) (hs : p.Site Γ e) {cls name : Symbol} {m : Entry}
    (hm : b.member? cls name = some m) :
    ∃ d ∈ p.declarations, ∃ c ms ms', p.arena.decl? d = some (.classDecl c) ∧ c.name = cls ∧
      c.methods = ms ++ ms' ∧ (c.block ms).meaning? 1 name = some m := by
  rcases Option.or_eq_some_iff.1 hm with hread | ⟨-, hopen⟩
  · obtain ⟨info, hinfo, hmember⟩ := Option.bind_eq_some_iff.1 hread
    obtain ⟨d, hd, c, hx, hname, -, rfl⟩ := h.classes cls info hinfo
    rw [Block.get?_scope] at hmember
    exact ⟨d, hd, c, c.methods, [], hx, hname, by simp, hmember⟩
  · obtain ⟨scope, hscope, hmember⟩ := Option.bind_eq_some_iff.1 hopen
    rw [h.scopes] at hscope
    obtain ⟨inner, blk, outer, hΓ, hkind, rfl⟩ := Context.classScope?_scopes hscope
    obtain ⟨⟨d, hd, c, ms, ms', hx, hname, hms, rfl⟩, hlength⟩ := hs.classBlock hΓ hkind
    rw [Block.get?_scope, hlength] at hmember
    exact ⟨d, hd, c, ms, ms', hx, hname, hms, hmember⟩

/-- A call of a method means the method of the class of its receiver. -/
theorem Faultless.methodCall (h : Faultless p names) (hs : p.Site Γ e) {receiver method : Symbol} {args : List ExprRef}
    (hx : p.arena.expr? e = some (.methodCall receiver method args)) :
    ∃ entry m d c ms ms', Γ.lookup? receiver = some entry ∧ entry.ty = .object c.name ∧ d ∈ p.declarations ∧
      p.arena.decl? d = some (.classDecl c) ∧ c.methods = ms ++ ms' ∧ (c.block ms).meaning? 1 method = some m ∧
      m.kind = .method ∧ (p.bind names).resolutions.get? e = some ⟨entry, Γ.depth, some m⟩ := by
  obtain ⟨b, hb, hclean, hempty, hsize, hget⟩ := h.visit hs
  have hlook := Γ.lookup?_scopes receiver
  rw [← hb.scopes] at hlook
  rw [visit_eq hx] at hempty hget
  rw [refer, resolveMethod, bind_run, get_run] at hempty hget
  dsimp only at hempty hget
  cases hl : b.scopes.lookup? receiver with
  | none =>
    rw [hl] at hempty
    simp at hempty
  | some entry =>
    rw [hl] at hempty hget
    dsimp only at hempty hget
    cases hty : entry.ty with
    | object cls =>
      simp only [hty, CheckedType.className?] at hempty hget
      have hentry := hlook.symm.trans hl
      have hknown : b.knowsClass cls = true := by
        obtain ⟨inner, blk, outer, before, D, after, rfl, -, hdeclared, -, -, rfl⟩ :=
          (Context.lookup?_eq_some hs.rooted).1 hentry
        refine hb.knowsClass hclean (hclean.known blk (by simp) D (hdeclared ▸ by simp) cls ?_)
        simp only at hty
        simp [hty, CheckedType.classes]
      rw [if_pos hknown] at hempty hget
      cases hm : (b.member? cls method).filter fun m => m.kind = .method with
      | none =>
        rw [hm] at hempty
        simp at hempty
      | some m =>
        rw [hm] at hget
        obtain ⟨hmember, hkind⟩ := Option.filter_eq_some_iff.1 hm
        obtain ⟨d, hd, c, ms, ms', hdecl, hname, hms, hmeaning⟩ := hb.member hs hmember
        refine ⟨entry, m, d, c, ms, ms', hentry, hname ▸ hty, hd, hdecl, hms, hmeaning, by simpa using hkind, ?_⟩
        rw [hget]
        simp only [resolve_run]
        rw [Resolutions.get?_set, if_pos ⟨rfl, hsize (Arena.lt_size_of_expr? hx)⟩, hb.scopes, Context.depth_scopes]
    | _ =>
      simp only [hty, CheckedType.className?] at hempty
      simp at hempty

end Binder

end Fool
