import Fool.Proofs.Binding.Frame
import Fool.Proofs.Binding.Reports

/-!
# Two programs bound side by side

Binding looks at the open scopes, the classes read and the class being read, never at what it has found out. So two runs
from states that agree in them (`Matches`) stay in step where the programs are written the same (`Alongside`): expressions
that are related by `R` get the same meaning, and the faults compare part by part (`Comparison`). Here are the rules for
the single steps of binding.
-/

namespace Fool

namespace Binder

/-! ## Steps side by side -/

/-- A comparison of what two runs report, which can be made part by part. -/
structure Comparison where
  holds : List BindError → List BindError → Prop
  nil : holds [] []
  append : ∀ {es es' fs fs'}, holds es es' → holds fs fs' → holds (es ++ fs) (es' ++ fs')

/-- Whatever is wrong at a place of the first list compares with the same at a place of the second. -/
def Comparison.Covers (C : Comparison) (L L' : List Location) : Prop :=
  ∀ cause, ∀ l ∈ L, ∀ l' ∈ L', C.holds [⟨cause, some l⟩] [⟨cause, some l'⟩]

/-- Each expression is related to one other at most, in both directions. -/
def OneToOne (R : ExprRef → ExprRef → Prop) : Prop := ∀ ⦃e e' x x'⦄, R e e' → R x x' → (e = x ↔ e' = x')

/-- States with more than `j` open scopes that differ in the faults at most, and in the meanings of expressions that are
not related. -/
structure Matches (R : ExprRef → ExprRef → Prop) (j : Nat) (b b' : Binder) : Prop where
  scopes : b'.scopes = b.scopes
  classes : b'.classes = b.classes
  currentClass : b'.currentClass = b.currentClass
  meanings : ∀ e e', R e e' → b'.resolutions.get? e' = b.resolutions.get? e
  cells : ∀ e e', R e e' → (e'.index < b'.resolutions.cells.size ↔ e.index < b.resolutions.cells.size)
  opened : j < b.scopes.stack.length

/-- From states that match the two steps lead to states that match, with the same answer and faults that compare. -/
def Alongside {α : Type} (R : ExprRef → ExprRef → Prop) (C : Comparison) (j : Nat) (m m' : BindM α) (j' : Nat) : Prop :=
  ∀ b b', Matches R j b b' → (m' b').1 = (m b).1 ∧ Matches R j' (m b).2 (m' b').2 ∧
    ∃ es es', (m b).2.errors = b.errors ++ es ∧ (m' b').2.errors = b'.errors ++ es' ∧ C.holds es es'

variable {α β : Type} {R : ExprRef → ExprRef → Prop} {C : Comparison} {i j j' j'' : Nat} {b b' : Binder}

theorem Matches.depth (h : Matches R j b b') : b'.scopes.depth = b.scopes.depth := by rw [h.scopes]

theorem Matches.knowsClass (h : Matches R j b b') : b'.knowsClass = b.knowsClass := by
  funext name
  simp only [Binder.knowsClass, h.scopes, h.classes, h.currentClass]

theorem Matches.member? (h : Matches R j b b') (cls name : Symbol) : b'.member? cls name = b.member? cls name := by
  simp only [Binder.member?, h.scopes, h.classes]

namespace Alongside

theorem pure (a : α) : Alongside R C j (Pure.pure a) (Pure.pure a) j := fun b b' h =>
  ⟨rfl, h, [], [], (List.append_nil b.errors).symm, (List.append_nil b'.errors).symm, C.nil⟩

theorem bind {m m' : BindM α} {k k' : α → BindM β} (hm : Alongside R C j m m' j')
    (hk : ∀ a, Alongside R C j' (k a) (k' a) j'') : Alongside R C j (m >>= k) (m' >>= k') j'' := by
  intro b b' h
  obtain ⟨ha, hmatch, es, es', he, he', hes⟩ := hm b b' h
  obtain ⟨hc, hmatch', fs, fs', hf, hf', hfs⟩ := hk (m b).1 _ _ hmatch
  rw [bind_run, bind_run, ha]
  refine ⟨hc, hmatch', es ++ fs, es' ++ fs', ?_, ?_, C.append hes hfs⟩
  · rw [hf, he, List.append_assoc]
  · rw [hf', he', List.append_assoc]

/-- A step that goes on from the state it finds. -/
theorem get {k k' : Binder → BindM β} (h : ∀ b b', Matches R j b b' → Alongside R C j (k b) (k' b') j') :
    Alongside R C j (MonadState.get >>= k) (MonadState.get >>= k') j' := fun b b' hb => h b b' hb b b' hb

/-- A step that reports nothing. -/
theorem modify {g g' : Binder → Binder} (h : ∀ b b', Matches R j b b' → Matches R j' (g b) (g' b'))
    (he : ∀ b, (g b).errors = b.errors) (he' : ∀ b, (g' b).errors = b.errors) :
    Alongside R C j (modify g) (modify g') j' := fun b b' hb =>
  ⟨rfl, h b b' hb, [], [], by simpa using he b, by simpa using he' b', C.nil⟩

theorem congr {m m' k k' : BindM Unit} (h : Alongside R C j m m' j') (hm : ∀ b, (k b).2 = (m b).2)
    (hm' : ∀ b, (k' b).2 = (m' b).2) : Alongside R C j k k' j' := by
  intro b b' hb
  rw [hm b, hm' b']
  exact ⟨rfl, (h b b' hb).2⟩

end Alongside

/-! ## Single steps -/

theorem alongside_report {l l' : Location} (hC : C.Covers [l] [l']) (cause : BindError.Cause) :
    Alongside R C j (report cause (some l)) (report cause (some l')) j := fun _ _ h =>
  ⟨rfl, ⟨h.scopes, h.classes, h.currentClass, h.meanings, h.cells, h.opened⟩, _, _, rfl, rfl,
    hC cause l List.mem_cons_self l' List.mem_cons_self⟩

theorem alongside_resolve (hR : OneToOne R) {e e' : ExprRef} (he : R e e') (r : Resolution) :
    Alongside R C j (resolve e r) (resolve e' r) j := by
  refine .modify (fun b b' h => ⟨h.scopes, h.classes, h.currentClass, fun x x' hx => ?_, fun x x' hx => ?_, h.opened⟩)
    (fun _ => rfl) fun _ => rfl
  · simp only [Resolutions.get?_set, h.meanings x x' hx, h.cells e e' he, hR he hx]
  · simpa [Resolutions.set] using h.cells x x' hx

variable {names : Names} {l l' : Location}

/-- Faults that one place has for the elements of a list compare with those of the other. -/
theorem Comparison.Covers.map (hC : C.Covers [l] [l']) (cause : α → BindError.Cause) (xs : List α) :
    C.holds (xs.map fun x => ⟨cause x, some l⟩) (xs.map fun x => ⟨cause x, some l'⟩) := by
  induction xs with
  | nil => exact C.nil
  | cons x xs ih => exact C.append (hC (cause x) l List.mem_cons_self l' List.mem_cons_self) ih

theorem alongside_checkType (hC : C.Covers [l] [l']) (ty : Ty) :
    Alongside R C j (checkType names (some l) ty) (checkType names (some l') ty) j := by
  intro b b' h
  rw [checkType_run, checkType_run]
  refine ⟨rfl, ⟨h.scopes, h.classes, h.currentClass, h.meanings, h.cells, h.opened⟩, _, _, rfl, rfl, ?_⟩
  rw [unknowns, unknowns, h.knowsClass]
  exact hC.map _ _

theorem alongside_declare (hC : C.Covers [l] [l']) (name : Symbol) (ty : CheckedType) (kind : EntryKind) :
    Alongside R C j (declare names name ty kind (some l)) (declare names name ty kind (some l')) j := by
  intro b b' h
  have hlength : (b.scopes.declared ⟨name, kind, ty⟩).stack.length = b.scopes.stack.length :=
    (b.scopes.within_declared ⟨name, kind, ty⟩).length
  unfold declare
  unfold Scopes.declared at hlength
  simp only [bind_run, get_run, h.scopes]
  cases hs : b.scopes.declare name b.scopes.depth ty kind with
  | none =>
    exact ⟨rfl, ⟨h.scopes, h.classes, h.currentClass, h.meanings, h.cells, h.opened⟩, _, _, rfl, rfl,
      hC _ l List.mem_cons_self l' List.mem_cons_self⟩
  | some r =>
    rw [hs] at hlength
    exact ⟨rfl, ⟨rfl, h.classes, h.currentClass, h.meanings, h.cells, Nat.lt_of_lt_of_eq h.opened hlength.symm⟩, [], [],
      (List.append_nil _).symm, (List.append_nil _).symm, C.nil⟩

/-! ## References -/

section Refer

variable {a a' : Arena} {e e' : ExprRef} (hR : OneToOne R) (he : R e e') (hl : a.location? e = some l)
  (hl' : a'.location? e' = some l') (hC : C.Covers [l] [l'])
include hR he hl hl' hC

theorem alongside_resolveName (name : Symbol) :
    Alongside R C j (resolveName a names e name) (resolveName a' names e' name) j := by
  refine .get fun b b' h => ?_
  simp only [h.scopes, hl, hl']
  cases b.scopes.lookup? name with
  | none => exact (alongside_report hC _).bind fun _ => .pure _
  | some entry => exact (alongside_resolve hR he _).bind fun _ => .pure _

theorem alongside_resolveValue (name : Symbol) :
    Alongside R C j (resolveValue a names e name) (resolveValue a' names e' name) j := by
  refine (alongside_resolveName hR he hl hl' hC name).bind fun answer => ?_
  cases answer with
  | none => exact .pure _
  | some r =>
    simp only [hl, hl']
    split
    · exact alongside_report hC _
    · exact .pure _

theorem alongside_resolveMethod (receiver method : Symbol) :
    Alongside R C j (resolveMethod a names e receiver method) (resolveMethod a' names e' receiver method) j := by
  refine .get fun b b' h => ?_
  simp only [h.scopes, h.knowsClass, h.member?, hl, hl']
  cases b.scopes.lookup? receiver with
  | none => exact alongside_report hC _
  | some entry =>
    dsimp only
    cases entry.ty.className? with
    | none => exact alongside_report hC _
    | some cls =>
      dsimp only
      split
      · cases (b.member? cls method).filter (·.kind = .method) with
        | none => exact alongside_report hC _
        | some m => exact alongside_resolve hR he _
      · exact .pure _

theorem alongside_resolveNew (cls : Symbol) :
    Alongside R C j (resolveNew a names e cls) (resolveNew a' names e' cls) j := by
  refine .get fun b b' h => ?_
  simp only [h.scopes, hl, hl']
  cases b.scopes.globalClass? cls with
  | none => exact alongside_report hC _
  | some entry => exact alongside_resolve hR he _

end Refer

end Binder

end Fool
