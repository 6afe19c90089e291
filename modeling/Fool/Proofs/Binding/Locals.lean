import Fool.Proofs.Binding.Reached
import Fool.Proofs.Tree.Descent

/-!
# How deep declarations are nested

A `DeclSite` is a declaration and whether it stands at the outermost level. `Arena.Nests` leads from one to the local
declarations of its functions; a class has functions at the outermost level only. Where no function is among its own local
declarations, directly or further in, no way inwards is longer than there are declarations (`length_le_of_nests`), so the
budget of a walk over declarations is never used up (`Arena.Reserve`).
-/

namespace Fool

open Relation (TransGen ReflTransGen)

/-- A declaration, and whether it stands at the outermost level. -/
structure DeclSite where
  decl : DeclRef
  outermost : Bool

namespace Arena

variable {a : Arena} {s t : DeclSite} {f : Function} {n : Nat}

/-- A function whose local declarations and body are bound with the declaration: the declaration itself, or a method of a
class at the outermost level. -/
inductive Hosts (a : Arena) (s : DeclSite) : Function → Prop
  | function {f : Function} : a.decl? s.decl = some (.funDecl f) → Hosts a s f
  | method {c : Class} {m : Function} : s.outermost = true → a.decl? s.decl = some (.classDecl c) → m ∈ c.methods →
      Hosts a s m

/-- The other is a local declaration of a function that is bound with the declaration. -/
def Nests (a : Arena) (s t : DeclSite) : Prop := t.outermost = false ∧ ∃ f, a.Hosts s f ∧ t.decl ∈ f.locals

/-- A whole expression that is bound with the declaration itself: its initial value, or the body of a function. -/
inductive Holds (a : Arena) (s : DeclSite) : ExprRef → Prop
  | init {v : Variable} : a.decl? s.decl = some (.varDecl v) → Holds a s v.init
  | body {f : Function} : a.Hosts s f → Holds a s f.body

/-- A class that is not at the outermost level. -/
def MisplacedAt (a : Arena) (s : DeclSite) (c : Class) : Prop :=
  s.outermost = false ∧ a.decl? s.decl = some (.classDecl c)

theorem Hosts.lt_size (h : a.Hosts s f) : s.decl.index < a.decls.size := by
  cases h with
  | function hx | method _ hx _ => exact (Array.getElem?_eq_some_iff.1 hx).1

/-- Further in only functions have local declarations. -/
theorem Hosts.of_inner (h : a.Hosts s f) (hs : s.outermost = false) : a.decl? s.decl = some (.funDecl f) := by
  cases h with
  | function hx => exact hx
  | method ho _ _ => rw [hs] at ho; cases ho

theorem hosts_fun (hx : a.decl? s.decl = some (.funDecl f)) {g : Function} : a.Hosts s g ↔ g = f := by
  constructor
  · intro h
    cases h with
    | function hy => cases hx.symm.trans hy; rfl
    | method _ hy _ => cases hx.symm.trans hy
  · rintro rfl
    exact .function hx

theorem hosts_class {c : Class} (hx : a.decl? s.decl = some (.classDecl c)) :
    a.Hosts s f ↔ s.outermost = true ∧ f ∈ c.methods := by
  constructor
  · intro h
    cases h with
    | function hy => cases hx.symm.trans hy
    | method ho hy hm => cases hx.symm.trans hy; exact ⟨ho, hm⟩
  · rintro ⟨ho, hm⟩
    exact .method ho hx hm

/-! ## Ways inwards -/

/-- A way inwards leads away from the outermost level, -/
theorem inner_of_nests (h : TransGen a.Nests s t) : t.outermost = false := by
  obtain ⟨_, -, hstep⟩ := TransGen.tail'_iff.1 h
  exact hstep.1

/-- and from a function on it leads over functions. -/
theorem contains_of_nests (h : TransGen a.Nests s t) (hx : a.decl? s.decl = some (.funDecl f)) :
    TransGen (Binder.Contains a) s.decl t.decl := by
  induction h with
  | single hst =>
    obtain ⟨-, g, hg, hmem⟩ := hst
    obtain rfl := (hosts_fun hx).1 hg
    exact .single ⟨g, hx, hmem⟩
  | tail hst htu ih =>
    obtain ⟨-, g, hg, hmem⟩ := htu
    exact ih.tail ⟨g, hg.of_inner (inner_of_nests hst), hmem⟩

/-- **Where no function is inside itself, no way inwards is longer than there are declarations.** -/
theorem length_le_of_nests (h : ∀ d, ¬TransGen (Binder.Contains a) d d) {way : List DeclSite}
    (hway : List.IsChain a.Nests (s :: way)) : way.length ≤ a.decls.size := by
  refine length_le_of_isChain (f := fun s => s.decl.index) (fun s t ⟨_, f, hf, _⟩ => hf.lt_size) ?_ hway
  intro s t u hst htu hindex
  obtain ⟨-, f, hf, -⟩ := htu
  -- two declarations of one number on one way: the second is further in, so it is a function, which is inside itself
  have heq : s.decl = t.decl := by
    generalize s.decl = d at hindex
    generalize t.decl = d' at hindex
    cases d
    cases d'
    cases hindex
    rfl
  have hx := hf.of_inner (inner_of_nests hst)
  have hcircle := contains_of_nests hst (heq ▸ hx)
  exact h t.decl (heq ▸ hcircle)

/-- The budget suffices for every way inwards. -/
def Reserve (a : Arena) (n : Nat) (s : DeclSite) : Prop := ∀ way, List.IsChain a.Nests (s :: way) → way.length < n

theorem not_reserve_zero : ¬a.Reserve 0 s := fun h => absurd (h [] (.singleton s)) (Nat.lt_irrefl 0)

theorem Reserve.nests (h : a.Reserve (n + 1) s) (hst : a.Nests s t) : a.Reserve n t := fun way hway => by
  simpa using h (t :: way) (.cons_cons hst hway)

theorem reserve_of_acyclic (h : ∀ d, ¬TransGen (Binder.Contains a) d d) (hn : a.decls.size < n) (s : DeclSite) :
    a.Reserve n s := fun _ hway => Nat.lt_of_le_of_lt (length_le_of_nests h hway) hn

end Arena

/-! ## Levels of states -/

namespace Binder

variable {a : Arena} {names : Names} {b b' : Binder} {outermost : Bool}

/-- Some scope is open, and it is the outermost one exactly if it is said so. -/
structure AtLevel (outermost : Bool) (b : Binder) : Prop where
  nonempty : b.scopes.stack ≠ []
  depth : b.scopes.depth = 0 ↔ outermost = true

theorem AtLevel.within (h : AtLevel outermost b) (hs : b.scopes.Within b'.scopes) : AtLevel outermost b' where
  nonempty := by
    rw [← List.length_pos_iff, hs.length]
    exact List.length_pos_iff.2 h.nonempty
  depth := by rw [hs.depth, h.depth]

/-- A declaration changes the innermost scope at most. -/
theorem AtLevel.decl (h : AtLevel outermost b) (n : Nat) (d : DeclRef) :
    AtLevel outermost (decl a names n d b).2 := by
  cases n with
  | zero => exact h
  | succ n =>
    refine h.within ?_
    rw [(decl_outcome n d b h.nonempty).scopes]
    exact b.scopes.within_foldl _

/-- Behind a function the scopes that were open are open. -/
theorem nonempty_function (f : Function) (kind : EntryKind) (h : b.scopes.stack ≠ []) (n : Nat) :
    (function a names (decl a names n) f f.arrowType.checked kind b).2.scopes.stack ≠ [] := by
  rw [← List.length_pos_iff, (function_keeps (encloses a names n) f kind b h).scopes,
    (b.scopes.within_declared _).length]
  exact List.length_pos_iff.2 h

variable (names) in
theorem atLevel_enterFunction (f : Function) (kind : EntryKind) (h : b.scopes.stack ≠ []) :
    AtLevel false (enterFunction names f kind b).2 := by
  have hdepth := depth_enterFunction names f kind h
  refine ⟨fun hnil => hdepth ?_, iff_of_false hdepth (by simp)⟩
  rw [Scopes.depth, hnil]
  rfl

end Binder

/-! ## Programs -/

namespace Program

variable (p : Program)

/-- Binding comes to the declaration. Nothing inside a class further in is come to. -/
def Visits (s : DeclSite) : Prop := ∃ d ∈ p.declarations, ReflTransGen p.arena.Nests ⟨d, true⟩ s

/-- A body or an initial value outside classes that are not at the outermost level. -/
def Bound (w : ExprRef) : Prop := w = p.body ∨ ∃ s, p.Visits s ∧ p.arena.Holds s w

end Program

end Fool
