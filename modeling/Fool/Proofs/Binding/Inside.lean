import Fool.Proofs.Binding.Sites
import Fool.Proofs.Binding.Tells

/-!
# The faults of declarations and of what is inside them

`Program.Inside` collects the faults of declarations with the expression behind them. It follows the structure of the
program downwards, as binding does; the faults of the whole program are the same (`fault_iff_inside`). The spots of a
declaration lie between the positions of its ends (`DeclAt.within`), so different declarations have different spots.
-/

namespace Fool

variable {a : Arena} {Γ Γ' : Context} {d : DeclRef} {names : Names} {sp : Spot} {e : BindError}

/-! ## The faults of a declaration itself -/

namespace Arena

theorem misdeclared_var {v : Variable} (hx : a.decl? d = some (.varDecl v)) : a.Misdeclared names Γ d sp e ↔
    Faults.unknown names (.decl d) Γ v.ty.checked v.location sp e ∨
      Faults.duplicate names (.decl d) Γ ⟨v.name, .var, v.ty.checked⟩ v.location sp e := by
  constructor
  · intro h
    cases h with
    | duplicate hn hhas =>
      cases hn with
      | var hy => cases hx.symm.trans hy; exact .inr ⟨hhas, rfl, rfl⟩
      | function hy | param hy _ | cls hy _ | field hy _ _ | method hy _ _ | methodParam hy _ _ _ =>
        cases hx.symm.trans hy
    | unknownClass ht hi hno =>
      cases ht with
      | var hy => cases hx.symm.trans hy; exact .inl ⟨_, _, hi, hno, rfl, rfl⟩
      | function hy | field hy _ _ | method hy _ _ => cases hx.symm.trans hy
    | misplaced hy _ => cases hx.symm.trans hy
  · rintro (⟨i, c, hi, hno, rfl, rfl⟩ | ⟨hhas, rfl, rfl⟩)
    · exact .unknownClass (.var hx) hi hno
    · exact .duplicate (.var hx) hhas

theorem misdeclared_fun {f : Function} (hx : a.decl? d = some (.funDecl f)) : a.Misdeclared names Γ d sp e ↔
    Faults.unknown names (.decl d) Γ f.arrowType.checked f.location sp e ∨
      Faults.head names (.decl d) (.param d none) Γ f .func sp e := by
  constructor
  · intro h
    cases h with
    | duplicate hn hhas =>
      cases hn with
      | function hy => cases hx.symm.trans hy; exact .inr (.inl ⟨hhas, rfl, rfl⟩)
      | param hy hps => cases hx.symm.trans hy; exact .inr (.inr ⟨_, _, _, hps, hhas, rfl, rfl⟩)
      | var hy | cls hy _ | field hy _ _ | method hy _ _ | methodParam hy _ _ _ => cases hx.symm.trans hy
    | unknownClass ht hi hno =>
      cases ht with
      | function hy => cases hx.symm.trans hy; exact .inl ⟨_, _, hi, hno, rfl, rfl⟩
      | var hy | field hy _ _ | method hy _ _ => cases hx.symm.trans hy
    | misplaced hy _ => cases hx.symm.trans hy
  · rintro (⟨i, c, hi, hno, rfl, rfl⟩ | ⟨hhas, rfl, rfl⟩ | ⟨before, y, after, hps, hhas, rfl, rfl⟩)
    · exact .unknownClass (.function hx) hi hno
    · exact .duplicate (.function hx) hhas
    · exact .duplicate (.param hx hps) hhas

theorem misdeclared_misplaced {c : Class} (hx : a.decl? d = some (.classDecl c)) (hdepth : Γ.depth ≠ 0) :
    a.Misdeclared names Γ d sp e ↔ sp = .name (.decl d) ∧ e = ⟨.misplacedClass (names.text c.name), c.location⟩ := by
  constructor
  · intro h
    cases h with
    | duplicate hn hhas =>
      cases hn with
      | var hy | function hy | param hy _ => cases hx.symm.trans hy
      | cls _ h0 | field _ h0 _ | method _ h0 _ | methodParam _ h0 _ _ => exact absurd h0 hdepth
    | unknownClass ht hi hno =>
      cases ht with
      | var hy | function hy => cases hx.symm.trans hy
      | field _ h0 _ | method _ h0 _ => exact absurd h0 hdepth
    | misplaced hy _ => cases hx.symm.trans hy; exact ⟨rfl, rfl⟩
  · rintro ⟨rfl, rfl⟩
    exact .misplaced hx hdepth

end Arena

namespace Faults

/-- The faults of the types of the members of a class. -/
def shape (names : Names) (d : DeclRef) (Γ : Context) (c : Class) : Faults := fun sp e =>
  eachOf c.fields (fun before x => unknown names (.field d before.length) (⟨.cls c.name, []⟩ :: Γ) x.ty.checked x.location)
    sp e ∨
  eachOf c.methods (fun before m => unknown names (.method d before.length) (⟨.cls c.name, []⟩ :: Γ) m.arrowType.checked
    m.location) sp e

/-- The faults of the names of a class and of its fields. -/
def members (names : Names) (d : DeclRef) (Γ : Context) (c : Class) : Faults := fun sp e =>
  duplicate names (.decl d) Γ c.declared c.location sp e ∨
  eachOf c.fields (fun before x => duplicate names (.field d before.length)
    (⟨.cls c.name, Declared.members .field before⟩ :: Γ.declareAll [c.declared]) ⟨x.name, .field, x.ty.checked⟩ x.location)
    sp e

end Faults

theorem Arena.misdeclared_class {c : Class} (hx : a.decl? d = some (.classDecl c)) (hdepth : Γ.depth = 0) :
    a.Misdeclared names Γ d sp e ↔ Faults.shape names d Γ c sp e ∨ Faults.members names d Γ c sp e ∨
      Faults.eachOf c.methods (fun ms m => Faults.head names (.method d ms.length) (.param d (some ms.length))
        (c.block ms :: Γ.declareAll [c.declared]) m .method) sp e := by
  constructor
  · intro h
    cases h with
    | duplicate hn hhas =>
      cases hn with
      | var hy | function hy | param hy _ => cases hx.symm.trans hy
      | cls hy _ => cases hx.symm.trans hy; exact .inr (.inl (.inl ⟨hhas, rfl, rfl⟩))
      | field hy _ hfs => cases hx.symm.trans hy; exact .inr (.inl (.inr ⟨_, _, _, hfs, hhas, rfl, rfl⟩))
      | method hy _ hms => cases hx.symm.trans hy; exact .inr (.inr ⟨_, _, _, hms, .inl ⟨hhas, rfl, rfl⟩⟩)
      | methodParam hy _ hms hps =>
        cases hx.symm.trans hy
        rw [Class.block_append] at hhas
        exact .inr (.inr ⟨_, _, _, hms, .inr ⟨_, _, _, hps, hhas, rfl, rfl⟩⟩)
    | unknownClass ht hi hno =>
      cases ht with
      | var hy | function hy => cases hx.symm.trans hy
      | field hy _ hfs => cases hx.symm.trans hy; exact .inl (.inl ⟨_, _, _, hfs, _, _, hi, hno, rfl, rfl⟩)
      | method hy _ hms => cases hx.symm.trans hy; exact .inl (.inr ⟨_, _, _, hms, _, _, hi, hno, rfl, rfl⟩)
    | misplaced _ h0 => exact absurd hdepth h0
  · rintro ((⟨_, _, _, hfs, i, n, hi, hno, rfl, rfl⟩ | ⟨_, _, _, hms, i, n, hi, hno, rfl, rfl⟩) |
      (⟨hhas, rfl, rfl⟩ | ⟨_, _, _, hfs, hhas, rfl, rfl⟩) |
      ⟨ms, m, _, hms, ⟨hhas, rfl, rfl⟩ | ⟨before, y, _, hps, hhas, rfl, rfl⟩⟩)
    · exact .unknownClass (.field hx hdepth hfs) hi hno
    · exact .unknownClass (.method hx hdepth hms) hi hno
    · exact .duplicate (.cls hx hdepth) hhas
    · exact .duplicate (.field hx hdepth hfs) hhas
    · exact .duplicate (.method hx hdepth hms) hhas
    · have hn := Naming.methodParam (a := a) (Γ := Γ) hx hdepth hms hps
      rw [Class.block_append] at hn
      exact .duplicate hn hhas

/-! ## What is inside -/

/-- A function of a declaration, or a method of a class at the outermost level, and the context inside it. -/
inductive Arena.Opens (a : Arena) (Γ : Context) (d : DeclRef) : Context → Function → Prop
  | function {f : Function} : a.decl? d = some (.funDecl f) → Opens a Γ d (f.block :: Γ.declareAll [f.declared .func]) f
  | method {c : Class} {ms ms' : List Function} {m : Function} : a.decl? d = some (.classDecl c) → Γ.depth = 0 →
      c.methods = ms ++ m :: ms' → Opens a Γ d (m.block :: c.block (ms ++ [m]) :: Γ.declareAll [c.declared]) m

/-- What is wrong with a reference, as a fault. -/
def Program.misused (p : Program) (names : Names) (Γ : Context) (r : ExprRef) : Faults := fun sp e =>
  ∃ x cause, p.arena.expr? r = some x ∧ p.Misuse names Γ x cause ∧ sp = .reference r ∧ e = ⟨cause, p.arena.location? r⟩

/-- The faults of the references below an expression. -/
def Program.whole (p : Program) (names : Names) (Γ : Context) (w : ExprRef) : Faults := fun sp e =>
  ∃ r ∈ p.arena.walk w, p.misused names Γ r sp e

/-- The faults of declarations with the expression behind them, and of what is inside the declarations. -/
inductive Program.Inside (p : Program) (names : Names) : Context → List DeclRef → ExprRef → Faults
  | body {Γ : Context} {ds : List DeclRef} {body : ExprRef} {sp : Spot} {e : BindError} :
      p.whole names (Γ.bind p.arena ds) body sp e → Inside p names Γ ds body sp e
  | init {Γ : Context} {ds ds' : List DeclRef} {d : DeclRef} {body : ExprRef} {v : Variable} {sp : Spot} {e : BindError} :
      p.arena.decl? d = some (.varDecl v) → p.whole names (Γ.bind p.arena ds) v.init sp e →
      Inside p names Γ (ds ++ d :: ds') body sp e
  | own {Γ : Context} {ds ds' : List DeclRef} {d : DeclRef} {body : ExprRef} {sp : Spot} {e : BindError} :
      p.arena.Misdeclared names (Γ.bind p.arena ds) d sp e → Inside p names Γ (ds ++ d :: ds') body sp e
  | inner {Γ Γ' : Context} {ds ds' : List DeclRef} {d : DeclRef} {body : ExprRef} {f : Function} {sp : Spot}
      {e : BindError} :
      p.arena.Opens (Γ.bind p.arena ds) d Γ' f → Inside p names Γ' f.locals f.body sp e →
      Inside p names Γ (ds ++ d :: ds') body sp e

/-- The faults of a declaration and of what is inside it. -/
def Program.ofDecl (p : Program) (names : Names) (Γ : Context) (d : DeclRef) : Faults := fun sp e =>
  p.arena.Misdeclared names Γ d sp e ∨ (∃ v, p.arena.decl? d = some (.varDecl v) ∧ p.whole names Γ v.init sp e) ∨
    ∃ Γ' f, p.arena.Opens Γ d Γ' f ∧ p.Inside names Γ' f.locals f.body sp e

/-- The faults of a class besides those of its shape: those of its name, of its fields, and of its methods with what is
inside. -/
def Program.inClass (p : Program) (names : Names) (Γ : Context) (d : DeclRef) (c : Class) : Faults := fun sp e =>
  Faults.members names d Γ c sp e ∨
  Faults.eachOf c.methods (fun ms m sp e =>
    Faults.head names (.method d ms.length) (.param d (some ms.length)) (c.block ms :: Γ.declareAll [c.declared]) m .method
      sp e ∨
    p.Inside names (m.block :: c.block (ms ++ [m]) :: Γ.declareAll [c.declared]) m.locals m.body sp e) sp e

namespace Program

variable {p : Program} {ds ds' : List DeclRef} {body : ExprRef} {f : Function}

theorem inside_iff : p.Inside names Γ ds body sp e ↔
    Faults.eachOf ds (fun before d => p.ofDecl names (Γ.bind p.arena before) d) sp e ∨
      p.whole names (Γ.bind p.arena ds) body sp e := by
  constructor
  · intro h
    cases h with
    | body h => exact .inr h
    | init hx h => exact .inl ⟨_, _, _, rfl, .inr (.inl ⟨_, hx, h⟩)⟩
    | own h => exact .inl ⟨_, _, _, rfl, .inl h⟩
    | inner ho h => exact .inl ⟨_, _, _, rfl, .inr (.inr ⟨_, _, ho, h⟩)⟩
  · rintro (⟨before, d, after, rfl, h | ⟨v, hx, h⟩ | ⟨Γ', f, ho, h⟩⟩ | h)
    · exact .own h
    · exact .init hx h
    · exact .inner ho h
    · exact .body h

theorem ofDecl_var {v : Variable} (hx : p.arena.decl? d = some (.varDecl v)) : p.ofDecl names Γ d sp e ↔
    p.whole names Γ v.init sp e ∨ Faults.unknown names (.decl d) Γ v.ty.checked v.location sp e ∨
      Faults.duplicate names (.decl d) Γ ⟨v.name, .var, v.ty.checked⟩ v.location sp e := by
  rw [ofDecl, Arena.misdeclared_var hx]
  constructor
  · rintro (h | ⟨v', hx', h⟩ | ⟨_, _, ho, -⟩)
    · exact .inr h
    · cases hx.symm.trans hx'
      exact .inl h
    · cases ho with
      | function hx' | method hx' _ _ => cases hx.symm.trans hx'
  · rintro (h | h)
    · exact .inr (.inl ⟨v, hx, h⟩)
    · exact .inl h

theorem ofDecl_fun {f : Function} (hx : p.arena.decl? d = some (.funDecl f)) : p.ofDecl names Γ d sp e ↔
    Faults.unknown names (.decl d) Γ f.arrowType.checked f.location sp e ∨
      Faults.head names (.decl d) (.param d none) Γ f .func sp e ∨
      p.Inside names (f.block :: Γ.declareAll [f.declared .func]) f.locals f.body sp e := by
  rw [ofDecl, Arena.misdeclared_fun hx, or_assoc]
  refine or_congr_right (or_congr_right ⟨?_, fun h => .inr ⟨_, f, .function hx, h⟩⟩)
  rintro (⟨v', hx', -⟩ | ⟨_, _, ho, h⟩)
  · cases hx.symm.trans hx'
  · cases ho with
    | function hx' => cases hx.symm.trans hx'; exact h
    | method hx' _ _ => cases hx.symm.trans hx'

theorem ofDecl_misplaced {c : Class} (hx : p.arena.decl? d = some (.classDecl c)) (hdepth : Γ.depth ≠ 0) :
    p.ofDecl names Γ d sp e ↔ sp = .name (.decl d) ∧ e = ⟨.misplacedClass (names.text c.name), c.location⟩ := by
  rw [ofDecl, Arena.misdeclared_misplaced hx hdepth]
  refine ⟨?_, .inl⟩
  rintro (h | ⟨v', hx', -⟩ | ⟨_, _, ho, -⟩)
  · exact h
  · cases hx.symm.trans hx'
  · cases ho with
    | function hx' => cases hx.symm.trans hx'
    | method _ hdepth' _ => exact absurd hdepth' hdepth

theorem ofDecl_class {c : Class} (hx : p.arena.decl? d = some (.classDecl c)) (hdepth : Γ.depth = 0) :
    p.ofDecl names Γ d sp e ↔ Faults.shape names d Γ c sp e ∨ p.inClass names Γ d c sp e := by
  rw [ofDecl, Arena.misdeclared_class hx hdepth]
  constructor
  · rintro ((h | h | ⟨ms, m, ms', hms, h⟩) | ⟨v', hx', -⟩ | ⟨_, _, ho, h⟩)
    · exact .inl h
    · exact .inr (.inl h)
    · exact .inr (.inr ⟨ms, m, ms', hms, .inl h⟩)
    · cases hx.symm.trans hx'
    · cases ho with
      | function hx' => cases hx.symm.trans hx'
      | method hx' _ hms => cases hx.symm.trans hx'; exact .inr (.inr ⟨_, _, _, hms, .inr h⟩)
  · rintro (h | h | ⟨ms, m, ms', hms, h | h⟩)
    · exact .inl (.inl h)
    · exact .inl (.inr (.inl h))
    · exact .inl (.inr (.inr ⟨ms, m, ms', hms, h⟩))
    · exact .inr (.inr ⟨_, _, .method hx hdepth hms, h⟩)

theorem Region.opens (hr : p.Region Γ (ds ++ d :: ds') body) (ho : p.arena.Opens (Γ.bind p.arena ds) d Γ' f) :
    p.Region Γ' f.locals f.body := by
  cases ho with
  | function hx => exact .function hr hx
  | method hx hdepth hms => exact .method hr hx (by simpa using hdepth) hms

/-- The faults of a region are faults of the program, and those of the regions inside are among them. -/
theorem Region.inside_main (hr : p.Region Γ ds body) (h : p.Inside names Γ ds body sp e) :
    p.Inside names [⟨.global, []⟩] p.declarations p.body sp e := by
  induction hr with
  | main => exact h
  | function _ hx ih => exact ih (.inner (.function hx) h)
  | method _ hx hdepth hms ih => exact ih (.inner (.method hx (by simpa using hdepth) hms) h)

theorem Inside.fault (h : p.Inside names Γ ds body sp e) (hr : p.Region Γ ds body) : p.Fault names sp e := by
  induction h with
  | body h =>
    obtain ⟨r, hr', x, cause, hx, hm, rfl, rfl⟩ := h
    exact .reference (.body hr hr') hx hm
  | init hd h =>
    obtain ⟨r, hr', x, cause, hx, hm, rfl, rfl⟩ := h
    exact .reference (.init hr hd hr') hx hm
  | own h => exact .declaration hr h
  | inner ho _ ih => exact ih (hr.opens ho)

/-- **The faults of a program are those of its declarations and of its body.** -/
theorem fault_iff_inside : p.Fault names sp e ↔ p.Inside names [⟨.global, []⟩] p.declarations p.body sp e := by
  refine ⟨fun h => ?_, fun h => h.fault .main⟩
  cases h with
  | reference hs hx hm =>
    cases hs with
    | body hr hmem => exact hr.inside_main (.body ⟨_, hmem, _, _, hx, hm, rfl, rfl⟩)
    | init hr hd hmem => exact hr.inside_main (.init hd ⟨_, hmem, _, _, hx, hm, rfl, rfl⟩)
  | declaration hr h => exact hr.inside_main (.own h)

end Program

/-! ## Where the spots lie -/

/-- The spot lies between two positions. -/
def Spot.Within (s t : Pos) : Spot → Prop
  | .reference e => Arena.Between s e t
  | .name x | .mention x _ => s.decls ≤ x.owner.index ∧ x.owner.index < t.decls

/-- The spot belongs to a declaration itself. -/
def Spot.Of (d : DeclRef) (sp : Spot) : Prop := ∃ x : Named, x.owner = d ∧ (sp = .name x ∨ ∃ i, sp = .mention x i)

namespace Spot

variable {s t s' t' : Pos}

theorem Within.mono (h : sp.Within s t) (hs : s'.Before s) (ht : t.Before t') : sp.Within s' t' := by
  obtain ⟨hn, hd⟩ := hs
  obtain ⟨hn', hd'⟩ := ht
  cases sp <;> simp only [Within, Arena.Between] at h ⊢ <;> omega

/-- What lies between two positions does not lie behind them. -/
theorem Within.not_behind (h : sp.Within s t) (ht : t.Before s') : ¬sp.Within s' t' := by
  obtain ⟨hn, hd⟩ := ht
  intro h'
  cases sp <;> simp only [Within, Arena.Between] at h h' <;> omega

theorem Of.within (h : sp.Of d) (hs : s.decls ≤ d.index) (ht : d.index < t.decls) : sp.Within s t := by
  obtain ⟨x, rfl, rfl | ⟨i, rfl⟩⟩ := h
  · exact ⟨hs, ht⟩
  · exact ⟨hs, ht⟩

theorem Of.not_within (h : sp.Of d) (ht : t.decls ≤ d.index) : ¬sp.Within s t := by
  obtain ⟨x, rfl, rfl | ⟨i, rfl⟩⟩ := h
  · exact fun hw => absurd hw.2 (by omega)
  · exact fun hw => absurd hw.2 (by omega)

end Spot

theorem Arena.Misdeclared.of (h : a.Misdeclared names Γ d sp e) : sp.Of d := by
  cases h with
  | duplicate hn _ =>
    refine ⟨_, ?_, .inl rfl⟩
    cases hn <;> rfl
  | unknownClass ht _ _ =>
    refine ⟨_, ?_, .inr ⟨_, rfl⟩⟩
    cases ht <;> rfl
  | misplaced _ _ => exact ⟨_, rfl, .inl rfl⟩

namespace Arena

variable {α : Type} {R : Pos → α → Pos → Prop} {k n : Nat} {s t : Pos}

/-- The ends of the things in a row, in their order. -/
theorem Row.marks (hR : ∀ {s t x}, R s x t → s.Before t) {xs : List α} (h : Row R s xs t) : ∃ mark : Nat → Pos,
    (∀ i x, xs[i]? = some x → R (mark i) x (mark (i + 1))) ∧ (∀ i j, i ≤ j → (mark i).Before (mark j)) ∧
      mark 0 = s ∧ mark xs.length = t := by
  induction xs generalizing s with
  | nil => exact ⟨fun _ => s, by simp, fun _ _ _ => .refl s, rfl, h⟩
  | cons x xs ih =>
    obtain ⟨m, hx, hrest⟩ := h
    obtain ⟨mark, hmark, hmono, rfl, hend⟩ := ih hrest
    refine ⟨fun i => i.casesOn s mark, fun i y hy => ?_, fun i j hij => ?_, rfl, hend⟩
    · cases i with
      | zero => cases hy; exact hx
      | succ i => exact hmark i y hy
    · cases i with
      | zero =>
        cases j with
        | zero => exact .refl s
        | succ j => exact (hR hx).trans (hmono 0 j (Nat.zero_le j))
      | succ i =>
        cases j with
        | zero => omega
        | succ j => exact hmono i j (by omega)

/-- What a declaration opens stands before its end. -/
theorem Opens.functionAt {f : Function} (ho : a.Opens Γ d Γ' f) (hd : a.DeclAt k (n + 1) s d t) :
    ∃ s' t', a.FunctionAt k (a.DeclAt k n) s' f t' ∧ s.Before s' ∧ t'.Before ⟨t.nodes, d.index⟩ := by
  cases ho with
  | function hx => exact ⟨s, ⟨t.nodes, d.index⟩, hd.function hx, .refl _, .refl _⟩
  | method hx _ hms =>
    exact (hd.methods hx).of_mem (fun hf => hf.before) (hms ▸ List.mem_append_right _ List.mem_cons_self)

end Arena

namespace Program

open Arena

variable {p : Program} {k n : Nat} {s q t : Pos} {ds : List DeclRef} {body : ExprRef}

theorem whole_within (hpost : p.arena.Postordered) {w : ExprRef} (hfill : p.arena.Fill k s [w] t)
    (h : p.whole names Γ w sp e) : sp.Within s t := by
  obtain ⟨⟨hf, hlt, hend⟩, -, -⟩ := hfill
  obtain ⟨r, hr, _, _, _, _, rfl, _⟩ := h
  have hmem := (hpost.mem_walk hlt).1 hr
  simp only [Tiles] at hend
  simp only [Spot.Within, Between]
  omega

/-- The spots of a declaration lie between its ends, if those of the regions inside it do. -/
theorem ofDecl_within_of (hpost : p.arena.Postordered)
    (hin : ∀ {Γ ds body s q t}, Row (p.arena.DeclAt k n) s ds q → p.arena.Fill k q [body] t →
      p.Inside names Γ ds body sp e → sp.Within s t)
    (hd : p.arena.DeclAt k (n + 1) s d t) (h : p.ofDecl names Γ d sp e) : sp.Within s t := by
  rcases h with h | ⟨v, hx, h⟩ | ⟨Γ', f, ho, h⟩
  · exact h.of.within hd.le.2.1 (by have := hd.le.2.2; omega)
  · exact (whole_within hpost (hd.var hx) h).mono (.refl s) hd.before_end
  · obtain ⟨s', t', ⟨q', hrow, hfill⟩, hs, ht⟩ := ho.functionAt hd
    exact (hin hrow hfill h).mono hs (ht.trans hd.before_end)

/-- The spots of a region lie between its ends. -/
theorem Inside.within (hpost : p.arena.Postordered) (hrow : Row (p.arena.DeclAt k n) s ds q)
    (hfill : p.arena.Fill k q [body] t) (h : p.Inside names Γ ds body sp e) : sp.Within s t := by
  induction n generalizing Γ ds body s q t with
  | zero =>
    rcases inside_iff.1 h with ⟨before, d, after, rfl, -⟩ | h
    · obtain ⟨_, _, hd, -⟩ := hrow.of_mem (fun h => h.before) (List.mem_append_right _ List.mem_cons_self)
      exact hd.elim
    · exact (whole_within hpost hfill h).mono (hrow.before fun h => h.before) (.refl t)
  | succ n ih =>
    rcases inside_iff.1 h with ⟨before, d, after, rfl, hin⟩ | h
    · obtain ⟨s', t', hd, hs, ht⟩ := hrow.of_mem (fun h => h.before) (List.mem_append_right _ List.mem_cons_self)
      exact (ofDecl_within_of hpost ih hd hin).mono hs (ht.trans hfill.before)
    · exact (whole_within hpost hfill h).mono (hrow.before fun h => h.before) (.refl t)

/-- The spots of a declaration lie between its ends. -/
theorem ofDecl_within (hpost : p.arena.Postordered) (hd : p.arena.DeclAt k n s d t) (h : p.ofDecl names Γ d sp e) :
    sp.Within s t := by
  cases n with
  | zero => exact hd.elim
  | succ n => exact ofDecl_within_of hpost (Inside.within hpost) hd h

end Program

end Fool
