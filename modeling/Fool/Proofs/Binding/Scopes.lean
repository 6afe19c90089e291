import Fool.Proofs.Binding.Context
import Fool.Binding.Decls
import Mathlib.Data.List.Induction
import Mathlib.Data.List.TakeWhile

/-!
# The stack of scopes is the context

`Context.scopes` is the stack of scopes that declares, block by block, what the context declares. It gives every name
the meaning that the context gives it (`lookup?_scopes`), and a declaration on the stack is a declaration in the
context (`declare_free`), refused if the innermost block has the name (`declare_taken`).
-/

namespace Fool

/-! ## The first declarations of the names -/

namespace Declared

theorem firsts_append (ds : List Declared) (d : Declared) :
    firsts (ds ++ [d]) = if ∃ d' ∈ ds, d'.name = d.name then firsts ds else firsts ds ++ [d] := by
  induction ds with
  | nil => simp [firsts]
  | cons d' ds ih =>
    rw [List.cons_append, firsts, ih, firsts]
    by_cases h : ∃ x ∈ ds, x.name = d.name
    · have h' : ∃ x ∈ d' :: ds, x.name = d.name := h.imp fun x hx => ⟨List.mem_cons_of_mem _ hx.1, hx.2⟩
      rw [if_pos h, if_pos h']
    · rw [if_neg h, List.filter_append]
      by_cases hn : d'.name = d.name
      · rw [if_pos ⟨d', List.mem_cons_self, hn⟩]
        simp [hn]
      · rw [if_neg]
        · simp [Ne.symm hn]
        · rintro ⟨x, hx, hxn⟩
          rcases List.mem_cons.1 hx with rfl | hx
          · exact hn hxn
          · exact h ⟨x, hx, hxn⟩

theorem firsts_eq_self {ds : List Declared} (h : (ds.map (·.name)).Nodup) : firsts ds = ds := by
  induction ds with
  | nil => rfl
  | cons d ds ih =>
    obtain ⟨hnew, hrest⟩ := List.nodup_cons.1 h
    have hall : ∀ d' ∈ ds, decide (d'.name ≠ d.name) = true := fun d' hd' =>
      decide_eq_true fun heq => hnew (List.mem_map.2 ⟨d', hd', heq⟩)
    rw [firsts, ih hrest, List.filter_eq_self.2 hall]

end Declared

namespace Scope

variable {s : Scope} {name : Symbol} {depth : Nat} {ty : CheckedType} {kind : EntryKind}

theorem declare_taken (h : s.get? name ≠ none) : s.declare name depth ty kind = none := by
  unfold declare
  rw [if_pos (Option.isSome_iff_ne_none.2 h)]

/-- A free name gets the next place of its kind. -/
theorem declare_free (h : s.get? name = none) :
    s.declare name depth ty kind = some (⟨kind, depth, s.nextOffset kind, ty⟩,
      { s with
        entries := s.entries ++ [(name, ⟨kind, depth, s.nextOffset kind, ty⟩)]
        nextSlot := if kind.takesSlot then s.nextSlot + 1 else s.nextSlot
        nextDeclaration := if kind.takesSlot then s.nextDeclaration else s.nextDeclaration - 1 }) := by
  unfold declare
  rw [if_neg (by simp [h])]
  split <;> rfl

end Scope

namespace Block

/-- The scope that declares what the block declares. -/
def scope (b : Block) (depth : Nat) : Scope :=
  b.declared.foldl (fun s d => ((s.declare d.name depth d.ty d.kind).map (·.2)).getD s) (.empty b.kind)

/-- The block declares the name. -/
def Has (b : Block) (name : Symbol) : Prop := ∃ d ∈ b.declared, d.name = name

variable {kind : ScopeKind} {depth : Nat}

theorem scope_append (ds : List Declared) (d : Declared) :
    (Block.mk kind (ds ++ [d])).scope depth =
      ((((Block.mk kind ds).scope depth).declare d.name depth d.ty d.kind).map (·.2)).getD
        ((Block.mk kind ds).scope depth) := by
  simp [scope]

theorem scope_declare (b : Block) (depth : Nat) (d : Declared) :
    (b.declare d).scope depth =
      (((b.scope depth).declare d.name depth d.ty d.kind).map (·.2)).getD (b.scope depth) :=
  scope_append b.declared d

theorem meaning?_eq_none {b : Block} {name : Symbol} : b.meaning? depth name = none ↔ ¬b.Has name := by
  simp [meaning?, Has]

/-- One more declaration changes only the meaning of its name, and only if that had none. -/
theorem meaning?_append (ds : List Declared) (d : Declared) (name : Symbol) :
    (Block.mk kind (ds ++ [d])).meaning? depth name =
      ((Block.mk kind ds).meaning? depth name).or
        (if d.name = name then some ⟨d.kind, depth, offset kind ds d, d.ty⟩ else none) := by
  unfold meaning?
  simp only [List.find?_append]
  cases hf : ds.find? fun x => decide (x.name = name) with
  | some d' =>
    have hmem : ∃ x ∈ ds, x.name = name := by
      have := List.find?_some hf
      exact ⟨d', List.mem_of_find?_eq_some hf, by simpa using this⟩
    have htake : (ds ++ [d]).takeWhile (fun x => decide (x.name ≠ name)) =
        ds.takeWhile fun x => decide (x.name ≠ name) := by
      rw [List.takeWhile_append, if_neg]
      intro hlen
      obtain ⟨x, hx, hxn⟩ := hmem
      rw [← (List.takeWhile_sublist _).eq_of_length hlen] at hx
      simpa [hxn] using List.mem_takeWhile_imp hx
    simp only [Option.some_or, Option.map_some, htake]
  | none =>
    have hall : ∀ x ∈ ds, decide (x.name ≠ name) = true := by
      intro x hx
      have := List.find?_eq_none.1 hf x hx
      simpa using this
    by_cases hn : d.name = name
    · have htake : (ds ++ [d]).takeWhile (fun x => decide (x.name ≠ name)) = ds := by
        rw [List.takeWhile_append_of_pos hall]
        simp [hn]
      rw [htake]
      simp [hn]
    · simp [hn]

/-- What holds of the scope of a block: the meaning of the names, the places that come next, the kind. -/
structure Describes (s : Scope) (depth : Nat) (b : Block) : Prop where
  get? : ∀ name, s.get? name = b.meaning? depth name
  nextSlot : s.nextSlot = firstSlot b.kind + (Declared.firsts b.declared).countP fun d => d.kind.takesSlot
  nextDeclaration : s.nextDeclaration =
    firstPlace b.kind - (Declared.firsts b.declared).countP fun d => !d.kind.takesSlot
  kind : s.kind = b.kind

theorem Describes.nextOffset {s : Scope} {ds : List Declared} (h : Describes s depth ⟨kind, ds⟩) (d : Declared) :
    s.nextOffset d.kind = offset kind ds d := by
  simp only [Scope.nextOffset, offset, h.nextSlot, h.nextDeclaration]

theorem describes_empty : Describes (.empty kind) depth ⟨kind, []⟩ := by
  constructor <;> cases kind <;> simp [Scope.empty, Scope.get?, meaning?, Declared.firsts, firstSlot, firstPlace]

/-- A refused declaration changes nothing. -/
theorem Describes.taken {s : Scope} {ds : List Declared} (h : Describes s depth ⟨kind, ds⟩) {d : Declared}
    (hd : (Block.mk kind ds).Has d.name) : Describes s depth ⟨kind, ds ++ [d]⟩ := by
  have hfirsts : Declared.firsts (ds ++ [d]) = Declared.firsts ds := (Declared.firsts_append ds d).trans (if_pos hd)
  refine ⟨fun name => ?_, by rw [h.nextSlot, hfirsts], by rw [h.nextDeclaration, hfirsts], h.kind⟩
  rw [h.get?, meaning?_append]
  by_cases hn : d.name = name
  · subst hn
    have hsome : (Block.mk kind ds).meaning? depth d.name ≠ none := fun he => meaning?_eq_none.1 he hd
    rw [Option.or_of_isSome (Option.isSome_iff_ne_none.2 hsome)]
  · simp [hn]

/-- A declaration of a free name. -/
theorem Describes.free {s s' : Scope} {entry : Entry} {ds : List Declared} (h : Describes s depth ⟨kind, ds⟩)
    {d : Declared} (hd : ¬(Block.mk kind ds).Has d.name)
    (hs : s.declare d.name depth d.ty d.kind = some (entry, s')) : Describes s' depth ⟨kind, ds ++ [d]⟩ := by
  have hnone : (Block.mk kind ds).meaning? depth d.name = none := meaning?_eq_none.2 hd
  have hfirsts : Declared.firsts (ds ++ [d]) = Declared.firsts ds ++ [d] :=
    (Declared.firsts_append ds d).trans (if_neg hd)
  have hget : ∀ name, s'.get? name = if d.name = name then some entry else s.get? name :=
    fun _ => Scope.get?_declare hs
  rw [Scope.declare_free (by rw [h.get?, hnone]), h.nextOffset] at hs
  cases hs
  refine ⟨fun name => ?_, ?_, ?_, h.kind⟩
  · rw [hget, h.get?, meaning?_append]
    by_cases hn : d.name = name
    · subst hn
      simp [hnone]
    · simp [hn]
  · simp only [h.nextSlot, hfirsts, List.countP_append, List.countP_singleton]
    split
    · push_cast
      omega
    · simp
  · simp only [h.nextDeclaration, hfirsts, List.countP_append, List.countP_singleton]
    cases d.kind.takesSlot
    · simp
      omega
    · simp

/-- **The scope of a block is what the block says.** -/
theorem describes_scope (ds : List Declared) : Describes ((Block.mk kind ds).scope depth) depth ⟨kind, ds⟩ := by
  induction ds using List.reverseRecOn with
  | nil => exact describes_empty
  | append_singleton ds d ih =>
    rw [scope_append]
    by_cases hd : (Block.mk kind ds).Has d.name
    · rw [Scope.declare_taken fun he => meaning?_eq_none.1 ((ih.get? _).symm.trans he) hd]
      exact ih.taken hd
    · have hfree := (ih.get? d.name).trans (meaning?_eq_none.2 hd)
      cases hs : ((Block.mk kind ds).scope depth).declare d.name depth d.ty d.kind with
      | none => rw [Scope.declare_free hfree] at hs; cases hs
      | some r => exact ih.free hd hs

@[simp] theorem get?_scope (b : Block) (name : Symbol) : (b.scope depth).get? name = b.meaning? depth name :=
  (describes_scope b.declared).get? name

@[simp] theorem kind_scope (b : Block) : (b.scope depth).kind = b.kind :=
  (describes_scope b.declared).kind

end Block

namespace Context

/-- The scopes of the blocks, innermost first. -/
def stack : Context → List Scope
  | [] => []
  | b :: Γ => b.scope Γ.length :: stack Γ

/-- The stack of scopes that declares what the context declares. -/
def scopes (Γ : Context) : Scopes := ⟨Γ.stack⟩

@[simp] theorem length_stack : ∀ Γ : Context, Γ.stack.length = Γ.length
  | [] => rfl
  | _ :: Γ => by rw [stack, List.length_cons, length_stack Γ, List.length_cons]

@[simp] theorem depth_scopes (Γ : Context) : Γ.scopes.depth = Γ.depth := by
  simp [scopes, Scopes.depth, depth]

/-- **A name means on the stack what it means in the context.** -/
theorem lookup?_scopes (Γ : Context) (name : Symbol) : Γ.scopes.lookup? name = Γ.lookup? name := by
  induction Γ with
  | nil => rfl
  | cons b Γ ih =>
    have hpush : scopes (b :: Γ) = (scopes Γ).push (b.scope Γ.length) := rfl
    rw [hpush, Scopes.lookup?_push, ih, Block.get?_scope, lookup?]

theorem pop_scopes (Γ : Context) (b : Block) : (scopes (b :: Γ)).pop = Γ.scopes := rfl

theorem push_empty (Γ : Context) (kind : ScopeKind) : Γ.scopes.push (.empty kind) = scopes (⟨kind, []⟩ :: Γ) := rfl

/-- Whether the innermost block has the name. -/
def Has (Γ : Context) (name : Symbol) : Prop := ∃ b ∈ Γ.head?, b.Has name

/-- A name that the innermost block has cannot be declared, and the context stays the same stack of scopes. -/
theorem declare_taken {Γ : Context} {d : Declared} (h : Γ.Has d.name) :
    Γ.scopes.declare d.name Γ.depth d.ty d.kind = none ∧ (Γ.declareAll [d]).scopes = Γ.scopes := by
  obtain ⟨b, hb, hd⟩ := h
  obtain ⟨b', Γ, rfl⟩ : ∃ b' Γ', Γ = b' :: Γ' := by cases Γ with
    | nil => cases hb
    | cons b' Γ => exact ⟨b', Γ, rfl⟩
  cases hb
  have hnone : (b.scope Γ.length).declare d.name Γ.length d.ty d.kind = none :=
    Scope.declare_taken fun he => Block.meaning?_eq_none.1 ((Block.get?_scope _ _).symm.trans he) hd
  constructor
  · simp [scopes, stack, Scopes.declare, depth, hnone]
  · have hscope := b.scope_declare Γ.length d
    rw [hnone] at hscope
    exact congrArg (fun s => Scopes.mk (s :: Context.stack Γ)) hscope

/-- Another name is declared. -/
theorem declare_free (b : Block) (Γ : Context) {d : Declared} (h : ¬b.Has d.name) :
    ∃ entry, (scopes (b :: Γ)).declare d.name Γ.length d.ty d.kind =
      some (entry, (declareAll (b :: Γ) [d]).scopes) := by
  have hfree : (b.scope Γ.length).get? d.name = none := (Block.get?_scope _ _).trans (Block.meaning?_eq_none.2 h)
  have hscope := b.scope_declare Γ.length d
  cases hs : (b.scope Γ.length).declare d.name Γ.length d.ty d.kind with
  | none => rw [Scope.declare_free hfree] at hs; cases hs
  | some r =>
    rw [hs] at hscope
    refine ⟨r.1, ?_⟩
    simp only [scopes, stack, Scopes.declare, hs, Option.map_some]
    exact congrArg (fun s => some (r.1, Scopes.mk (s :: Context.stack Γ))) hscope.symm

theorem isSome_declare {Γ : Context} (hne : Γ ≠ []) (d : Declared) :
    (Γ.scopes.declare d.name Γ.depth d.ty d.kind).isSome = true ↔ ¬Γ.Has d.name := by
  constructor
  · intro hsome htaken
    rw [(declare_taken htaken).1] at hsome
    cases hsome
  · intro hfree
    obtain ⟨blk, Γ', rfl⟩ := List.exists_cons_of_ne_nil hne
    obtain ⟨entry, hdeclare⟩ := declare_free blk Γ' fun h => hfree ⟨blk, rfl, h⟩
    exact Option.isSome_of_eq_some hdeclare

end Context

end Fool
