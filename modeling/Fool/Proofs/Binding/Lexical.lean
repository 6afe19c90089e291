import Fool.Proofs.Binding.Moments
import Fool.Proofs.Binding.Sites

/-!
# Binding computes lexical scoping

A name means its first declaration in the innermost block that declares it (`Context.Means`); its depth is the number
of functions and classes around that declaration. Binding gives every name and every call exactly this meaning,
whether or not there are faults in the program (`bind_lexical`): it gives none just if no block around it declares the
name.
-/

namespace Fool

namespace Context

variable {Γ : Context} {b : Block} {name : Symbol} {entry : Entry} {depth : Nat}

/-- How many functions and classes are around a place. -/
def enclosing (Γ : Context) : Nat := Γ.countP fun b => b.kind ≠ .global

/-- The outermost block is that of the program, the others are those of functions and classes. -/
def Rooted : Context → Prop
  | [] => False
  | [b] => b.kind = .global
  | b :: b' :: Γ => b.kind ≠ .global ∧ Rooted (b' :: Γ)

/-- **The declaration that a name means:** the first in the innermost block that has one. -/
def Means (Γ : Context) (name : Symbol) (entry : Entry) : Prop :=
  ∃ inner b outer before d after, Γ = inner ++ b :: outer ∧ (∀ b' ∈ inner, ¬b'.Has name) ∧
    b.declared = before ++ d :: after ∧ (∀ d' ∈ before, d'.name ≠ name) ∧ d.name = name ∧
    entry = ⟨d.kind, enclosing (b :: outer), Block.offset b.kind before d, d.ty⟩

theorem Rooted.ne_nil (h : Γ.Rooted) : Γ ≠ [] := by
  rintro rfl
  exact h

theorem Rooted.cons (h : Γ.Rooted) (hb : b.kind ≠ .global) : Rooted (b :: Γ) := by
  cases Γ with
  | nil => exact h.elim
  | cons b' Γ => exact ⟨hb, h⟩

theorem Rooted.declareAll (h : Γ.Rooted) (ds : List Declared) : (Γ.declareAll ds).Rooted := by
  cases Γ with
  | nil => exact h
  | cons b Γ =>
    cases Γ with
    | nil => exact h
    | cons b' Γ => exact h

/-- Around a block of a rooted context are as many functions and classes as there are blocks outside it. -/
theorem Rooted.enclosing (h : Rooted (b :: Γ)) : enclosing (b :: Γ) = Γ.length := by
  induction Γ generalizing b with
  | nil => simpa [Context.enclosing, Rooted] using h
  | cons b' Γ ih =>
    have hrest : Context.enclosing (b' :: Γ) = Γ.length := ih h.2
    unfold Context.enclosing at hrest ⊢
    rw [List.countP_cons, hrest, if_pos (by simpa using h.1), List.length_cons]

theorem Rooted.enclosing_eq_depth (h : Γ.Rooted) : Γ.enclosing = Γ.depth := by
  cases Γ with
  | nil => exact h.elim
  | cons b Γ => exact h.enclosing

end Context

/-! ## What a name means -/

/-- In a block a name means its first declaration. -/
theorem Block.meaning?_eq_some {b : Block} {depth : Nat} {name : Symbol} {entry : Entry} :
    b.meaning? depth name = some entry ↔
      ∃ before d after, b.declared = before ++ d :: after ∧ (∀ d' ∈ before, d'.name ≠ name) ∧ d.name = name ∧
        entry = ⟨d.kind, depth, Block.offset b.kind before d, d.ty⟩ := by
  have htake : ∀ {before after : List Declared} {d : Declared}, (∀ d' ∈ before, d'.name ≠ name) → d.name = name →
      (before ++ d :: after).takeWhile (fun x => decide (x.name ≠ name)) = before := by
    intro before after d hbefore hd
    rw [List.takeWhile_append_of_pos (by simpa using hbefore)]
    simp [hd]
  unfold meaning?
  rw [Option.map_eq_some_iff]
  constructor
  · rintro ⟨d, hd, rfl⟩
    obtain ⟨hname, before, after, heq, hbefore⟩ := List.find?_eq_some_iff_append.1 hd
    have hbefore' : ∀ d' ∈ before, d'.name ≠ name := by simpa using hbefore
    have hname' : d.name = name := by simpa using hname
    refine ⟨before, d, after, heq, hbefore', hname', ?_⟩
    rw [heq, htake hbefore' hname']
  · rintro ⟨before, d, after, heq, hbefore, hname, rfl⟩
    refine ⟨d, List.find?_eq_some_iff_append.2 ⟨by simpa using hname, before, after, heq, by simpa using hbefore⟩, ?_⟩
    rw [heq, htake hbefore hname]

namespace Context

variable {Γ : Context} {name : Symbol} {entry : Entry}

/-- A name means something just if a block declares it. -/
theorem isSome_lookup? : (Γ.lookup? name).isSome ↔ ∃ b ∈ Γ, b.Has name := by
  induction Γ with
  | nil => simp [lookup?]
  | cons b Γ ih =>
    rw [lookup?, Option.isSome_or, Bool.or_eq_true, ih, List.exists_mem_cons_iff]
    have hb : (b.meaning? (List.length Γ) name).isSome ↔ b.Has name := by
      rw [Option.isSome_iff_ne_none, ne_eq, Block.meaning?_eq_none, not_not]
    rw [hb]

theorem means_cons_of_has {b : Block} (h : Rooted (b :: Γ)) (hb : b.Has name) :
    Means (b :: Γ) name entry ↔ b.meaning? Γ.length name = some entry := by
  rw [Block.meaning?_eq_some, ← h.enclosing]
  constructor
  · rintro ⟨inner, b', outer, before, d, after, heq, hinner, hd⟩
    cases inner with
    | nil =>
      cases heq
      exact ⟨before, d, after, hd⟩
    | cons b'' inner =>
      cases heq
      exact absurd hb (hinner b List.mem_cons_self)
  · rintro ⟨before, d, after, hd⟩
    exact ⟨[], b, Γ, before, d, after, rfl, by simp, hd⟩

theorem means_cons_of_not_has {b : Block} (hb : ¬b.Has name) : Means (b :: Γ) name entry ↔ Γ.Means name entry := by
  constructor
  · rintro ⟨inner, b', outer, before, d, after, heq, hinner, hdeclared, hbefore, hname, hentry⟩
    cases inner with
    | nil =>
      cases heq
      exact absurd ⟨d, hdeclared ▸ List.mem_append_right _ List.mem_cons_self, hname⟩ hb
    | cons b'' inner =>
      cases heq
      exact ⟨inner, b', outer, before, d, after, rfl, fun x hx => hinner x (List.mem_cons_of_mem _ hx), hdeclared,
        hbefore, hname, hentry⟩
  · rintro ⟨inner, b', outer, before, d, after, rfl, hinner, hd⟩
    refine ⟨b :: inner, b', outer, before, d, after, rfl, fun x hx => ?_, hd⟩
    rcases List.mem_cons.1 hx with rfl | hx
    · exact hb
    · exact hinner x hx

/-- **Looking a name up block by block finds the first declaration in the innermost block that has one.** -/
theorem lookup?_eq_some (h : Γ.Rooted) : Γ.lookup? name = some entry ↔ Γ.Means name entry := by
  induction Γ with
  | nil => exact h.elim
  | cons b Γ ih =>
    rw [lookup?]
    by_cases hb : b.Has name
    · have hsome : (b.meaning? (List.length Γ) name).isSome :=
        Option.isSome_iff_ne_none.2 fun hn => Block.meaning?_eq_none.1 hn hb
      rw [Option.or_of_isSome hsome, means_cons_of_has h hb]
    · rw [Block.meaning?_eq_none.2 hb, Option.none_or, means_cons_of_not_has hb]
      cases Γ with
      | nil => simp [lookup?, Means]
      | cons b' Γ => exact ih h.2

/-- A declaration is never deeper than the place from which it is found. -/
theorem Means.depth_le (h : Γ.Means name entry) : entry.depth ≤ Γ.enclosing := by
  obtain ⟨inner, b, outer, before, d, after, rfl, -, -, -, -, rfl⟩ := h
  show enclosing (b :: outer) ≤ enclosing (inner ++ b :: outer)
  unfold enclosing
  rw [List.countP_append]
  exact Nat.le_add_left _ _

end Context

/-! ## The contexts of a program -/

theorem Program.Region.rooted {p : Program} {Γ : Context} {ds : List DeclRef} {body : ExprRef}
    (h : p.Region Γ ds body) : Γ.Rooted := by
  induction h with
  | main => rfl
  | function _ _ ih => exact ((ih.declareAll _).declareAll _).cons (by simp [Function.block])
  | method _ _ _ _ ih =>
    exact (((ih.declareAll _).declareAll _).cons (by simp [Class.block])).cons (by simp [Function.block])

theorem Program.Site.rooted {p : Program} {Γ : Context} {e : ExprRef} (h : p.Site Γ e) : Γ.Rooted := by
  cases h with
  | body hr _ => exact hr.rooted.declareAll _
  | init hr _ _ => exact hr.rooted.declareAll _

/-! ## The meanings that binding gives -/

namespace Binder

variable {p : Program} {Γ : Context} {b : Binder} {names : Names} {e : ExprRef} {name : Symbol}

/-- A visit to a name or a call gives it the meaning of its name. -/
theorem get?_visit (h : At p Γ b) (hfresh : b.resolutions.get? e = none)
    (hsize : e.index < b.resolutions.cells.size)
    (hx : p.arena.expr? e = some (.name name) ∨ ∃ args, p.arena.expr? e = some (.call name args)) :
    (visit p.arena names e b).2.resolutions.get? e = (Γ.lookup? name).map (⟨·, Γ.depth, none⟩) := by
  have hname : (resolveName p.arena names e name b).2.resolutions.get? e =
      (Γ.lookup? name).map (⟨·, Γ.depth, none⟩) := by
    have hlook := Γ.lookup?_scopes name
    rw [← h.scopes] at hlook
    rw [← hlook, ← Γ.depth_scopes, ← h.scopes]
    cases hl : b.scopes.lookup? name with
    | none => rw [resolveName_none hl]; exact hfresh
    | some entry => rw [resolveName_some hl, Resolutions.get?_set, if_pos ⟨rfl, hsize⟩]; rfl
  rcases hx with hx | ⟨args, hx⟩
  · rw [visit_eq hx, ← hname]
    simp only [refer, resolveValue, bind_run]
    cases (resolveName p.arena names e name b).1 with
    | none => rfl
    | some r =>
      dsimp only
      split <;> rfl
  · rw [visit_eq hx, ← hname]
    rfl

/-- At its site a name or a call gets the meaning that the context gives it. -/
theorem get?_bind_site (h : p.Placed) (names : Names) (hs : p.Site Γ e)
    (hx : p.arena.expr? e = some (.name name) ∨ ∃ args, p.arena.expr? e = some (.call name args)) :
    (p.bind names).resolutions.get? e = (Γ.lookup? name).map (⟨·, Γ.depth, none⟩) := by
  obtain ⟨b, hb⟩ := happens_visit h names hs
  have hlt : e.index < p.arena.nodes.size := by
    rcases hx with hx | ⟨args, hx⟩ <;> exact Arena.lt_size_of_expr? hx
  rw [bind_eq]
  exact (hb.stays e (Nat.le_refl _) (Nat.lt_succ_self _)).trans
    (get?_visit hb.stands (hb.fresh e (Nat.le_refl _) (Nat.lt_succ_self _)) (hb.size ▸ hlt) hx)

end Binder

/-- **Binding computes lexical scoping.** Outside misplaced classes every name and every call stands at a site, and at
each of its sites it has a meaning just if a block around it declares the name; it means the first declaration in the
innermost block that has one, as many functions and classes out as `hops` says. -/
theorem bind_lexical {text : String} {names names' : Names} {p : Program}
    (h : Program.parse text names = (.ok p, names')) (ns : Names) {e : ExprRef} {name : Symbol}
    (hx : p.arena.expr? e = some (.name name) ∨ ∃ args, p.arena.expr? e = some (.call name args))
    (hplace : ¬p.Misplaced e) :
    (∃ Γ, p.Site Γ e) ∧ ∀ Γ, p.Site Γ e →
      (((p.bind ns).resolutions.get? e).isSome ↔ ∃ b ∈ Γ, b.Has name) ∧
      ∀ r, (p.bind ns).resolutions.get? e = some r →
        Γ.Means name r.entry ∧ r.callDepth = Γ.enclosing ∧ r.method = none ∧ r.entry.depth ≤ r.callDepth ∧
        r.callDepth = r.entry.depth + r.hops := by
  have hplaced := placed_of_parse h
  have hlt : e.index < p.arena.nodes.size := by
    rcases hx with hx | ⟨args, hx⟩ <;> exact Arena.lt_size_of_expr? hx
  refine ⟨(hplaced.site_or_misplaced hlt).resolve_right hplace, fun Γ hs => ?_⟩
  have hroot := hs.rooted
  have hget := Binder.get?_bind_site hplaced ns hs hx
  refine ⟨by rw [hget, Option.isSome_map, Context.isSome_lookup?], fun r hr => ?_⟩
  obtain ⟨entry, hentry, rfl⟩ := Option.map_eq_some_iff.1 (hget.symm.trans hr)
  have hmeans := (Context.lookup?_eq_some hroot).1 hentry
  have hle : entry.depth ≤ Γ.depth := hroot.enclosing_eq_depth ▸ hmeans.depth_le
  refine ⟨hmeans, hroot.enclosing_eq_depth.symm, rfl, hle, ?_⟩
  simp only [Resolution.hops]
  omega

/-- The tree of `let fun f:int(x:int) x; in f(1);`. -/
def identityCall : Program where
  arena :=
    ⟨#[⟨.name ⟨1⟩, some ⟨1, 22, 21⟩⟩, ⟨.int 1, some ⟨1, 30, 29⟩⟩, ⟨.call ⟨0⟩ [⟨1⟩], some ⟨1, 28, 27⟩⟩],
      #[.funDecl ⟨⟨0⟩, .int, [⟨⟨1⟩, .int, some ⟨1, 15, 14⟩⟩], [], ⟨0⟩, some ⟨1, 5, 4⟩⟩]⟩
  declarations := [⟨0⟩]
  body := ⟨2⟩

theorem parse_identityCall :
    Program.parse "let fun f:int(x:int) x; in f(1);" .empty = (.ok identityCall, ⟨#["f", "x"]⟩) := by
  decide +kernel

/-- The name in the body of a function means the parameter. -/
theorem bind_lexical_parameter : ¬identityCall.Misplaced ⟨0⟩ ∧ (∃ Γ, identityCall.Site Γ ⟨0⟩) ∧
    ∀ Γ, identityCall.Site Γ ⟨0⟩ → Γ.Means ⟨1⟩ ⟨.param, 1, 1, .int⟩ := by
  have hplace : ¬identityCall.Misplaced ⟨0⟩ := by
    rintro ⟨Γ, ds, body, ⟨i⟩, c, w, hr, hd, hx, -⟩
    match i with
    | 0 => cases hx
    | i + 1 => cases hx
  have hget : (identityCall.bind .empty).resolutions.get? ⟨0⟩ = some ⟨⟨.param, 1, 1, .int⟩, 1, none⟩ := by rfl
  obtain ⟨hsite, hall⟩ := bind_lexical parse_identityCall .empty (Or.inl rfl) hplace
  exact ⟨hplace, hsite, fun Γ hs => ((hall Γ hs).2 _ hget).1⟩

end Fool
