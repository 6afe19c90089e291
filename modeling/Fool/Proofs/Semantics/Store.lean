import Fool.Proofs.Binding.Places
import Fool.Proofs.Codegen.Pieces
import Fool.Proofs.Codegen.Shape
import Fool.Proofs.Semantics.Evaluator

/-!
# Values and surroundings in memory

`Setting.Shown` says which word a value is: an object is its address, a function the address of its unit.
`Setting.Located` says where the surroundings `Env` of a place lie: the values of the innermost frame or object at
their places around its address, those further out behind access links, and the declarations of the program around the
end of memory. Both refer to each other, since a function as a value needs its surroundings. Both stay true when memory
and the objects grow (`Shown.grow`, `Located.grow`).

The table of a class may lack an entry if memory was almost full when it was written (`Store.Crowded`); then no object
of the class is ever made.
-/

namespace Fool

/-- The place is inside a class. -/
def Context.inClass (Γ : Context) : Bool := Γ.any fun b => match b.kind with
  | .cls _ => true
  | _ => false

namespace Reference

/-- A program without faults and its loaded code, for a memory of some size. -/
structure Setting where
  program : Program
  names : Names
  image : Image
  size : Nat
  units : List Code
  faultless : Binder.Faultless program names
  linked : image.Linked
  bound : size < Address.bound
  placed : ∀ unit ∈ units, ∃ ip, image.Placed ip unit

/-- What memory holds for good: the values of the declarations of the program on the stack, the heap, and in it the
objects, each with its address. -/
structure Store where
  globals : List Int64
  heap : List Int64
  objects : List (Object × Nat)

namespace Store

variable {σ σ' σ'' : Store}

/-- The objects without their addresses. -/
def values (σ : Store) : List Object := σ.objects.map (·.1)

/-- The stack as it is seen from a block: the outermost block sees only the values of the program. -/
def stack (σ : Store) (s : List Int64) : Context → List Int64
  | [] => σ.globals
  | _ :: _ => s

/-- There is more than before. -/
structure Grows (σ σ' : Store) : Prop where
  globals : σ.globals <:+ σ'.globals
  heap : σ.heap <+: σ'.heap
  objects : σ.objects <+: σ'.objects

theorem Grows.refl (σ : Store) : σ.Grows σ := ⟨List.suffix_refl _, List.prefix_refl _, List.prefix_refl _⟩

theorem Grows.trans (h : σ.Grows σ') (h' : σ'.Grows σ'') : σ.Grows σ'' :=
  ⟨h.globals.trans h'.globals, h.heap.trans h'.heap, h.objects.trans h'.objects⟩

theorem Grows.stack (h : σ.Grows σ') {s s' : List Int64} (hs : s <:+ s') : ∀ Γ, σ.stack s Γ <:+ σ'.stack s' Γ
  | [] => h.globals
  | _ :: _ => hs

end Store

namespace Setting

variable (C : Setting)

/-- The code that an expression can have. -/
def Coded (inClass : Bool) : ExprRef → Code → Prop :=
  Generator.Coded C.program.arena (C.program.bind C.names).resolutions (Int64.ofNat C.size) inClass

/-- The code that a declaration can have. -/
def DeclCoded : Nat → Bool → DeclRef → Code → Prop :=
  Generator.DeclCoded C.program.arena (C.program.bind C.names).resolutions (Int64.ofNat C.size) C.units

/-- Memory is so full that the table of a class may lack an entry. -/
def Crowded (σ : Store) : Prop := C.size ≤ σ.globals.length + σ.heap.length + 1

/-- The unit of a function, whose surroundings are those of the context, begins at the address. -/
def FunctionAt (Γ : Context) (f : Function) (t : Nat) : Prop :=
  ∃ n entry, Generator.FunctionCoded C.program.arena (C.program.bind C.names).resolutions (Int64.ofNat C.size) Γ.inClass
    (C.DeclCoded n Γ.inClass) C.units f entry ∧ C.image.addressOf? entry = some t ∧
    C.program.Region (f.block :: Γ) f.locals f.body

/-- The class is declared, and the entries of its methods stand in the heap from the address on. -/
def ClassAt (Γ : Context) (c : Class) (heap : List Int64) (a : Nat) : Prop :=
  (∃ d ∈ C.program.declarations, C.program.arena.decl? d = some (.classDecl c)) ∧
  ∀ ms m ms', c.methods = ms ++ m :: ms' →
    ∃ t, C.FunctionAt (c.block (ms ++ [m]) :: Γ) m t ∧ heap[a + ms.length]? = some (Int64.ofNat t)

/-- At an offset from the address lies the word. -/
def Holds (σ : Store) (s : List Int64) (a : Nat) (k : Int) (w : Int64) : Prop :=
  ∃ b : Nat, (b : Int) = a + k ∧ Cell C.size s σ.heap b w

mutual

/-- **The word is the value.** -/
inductive Shown (σ : Store) : Value → Int64 → Prop
  | int {v : Int64} : Shown σ (.int v) v
  | object {id : Nat} {o : Object} {a : Nat} : σ.objects[id]? = some (o, a) → Shown σ (.object id) (Int64.ofNat a)
  | func {f : Function} {outer : Env} {blk : Block} {t : Nat} : Located σ [] (.func f outer) [blk] C.size →
      C.FunctionAt [blk] f t → Shown σ (.func f outer) (Int64.ofNat t)
  | cls {c : Class} {w : Int64} : Shown σ (.cls c) w

/-- **The surroundings, in the context, lie around the address.** -/
inductive Located (σ : Store) : List Int64 → Env → Context → Nat → Prop
  | top {s : List Int64} : Located σ s .top [⟨.global, []⟩] C.size
  | value {s : List Int64} {kind : EntryKind} {name : Symbol} {ty : Ty} {v : Value} {outer : Env} {blk : Block}
      {Γ : Context} {a : Nat} {w : Int64} : Located σ s outer (blk :: Γ) a → kind = .var ∨ kind = .param →
      C.Holds σ (σ.stack s Γ) a (Block.offset blk.kind blk.declared ⟨name, kind, ty.checked⟩) w → Shown σ v w →
      Located σ s (.value kind name ty v outer) (blk.declare ⟨name, kind, ty.checked⟩ :: Γ) a
  | func {s : List Int64} {f : Function} {outer : Env} {blk : Block} {Γ : Context} {a t : Nat} :
      Located σ s outer (blk :: Γ) a → C.FunctionAt (blk.declare (f.declared .func) :: Γ) f t →
      C.Holds σ (σ.stack s Γ) a (Block.offset blk.kind blk.declared (f.declared .func)) (Int64.ofNat t) →
      Located σ s (.func f outer) (blk.declare (f.declared .func) :: Γ) a
  | cls {s : List Int64} {c : Class} {outer : Env} {blk : Block} {T : Nat} : Located σ s outer [blk] C.size →
      (¬C.Crowded σ → C.ClassAt [blk.declare c.declared] c σ.heap T) →
      C.Holds σ σ.globals C.size (Block.offset blk.kind blk.declared c.declared) (Int64.ofNat T) →
      Located σ s (.cls c outer) [blk.declare c.declared] C.size
  | frame {s : List Int64} {outer : Env} {Γ : Context} {a b : Nat} : Located σ s outer Γ b →
      Cell C.size s σ.heap a (Int64.ofNat b) → Located σ s (.frame outer) (⟨.function, []⟩ :: Γ) a
  | object {s : List Int64} {id : Nat} {c : Class} {methods : List Function} {outer : Env} {blk : Block} {o : Object}
      {a : Nat} : Located σ s outer [blk] C.size → σ.objects[id]? = some (o, a) → o.cls = c → o.env = outer →
      methods <+: c.methods → Located σ s (.object id c methods outer) [c.block methods, blk] a

end

variable {C} {σ σ' : Store} {s s' : List Int64} {a : Nat} {v : Value} {w : Int64} {env : Env} {Γ : Context}

theorem Crowded.mono (h : C.Crowded σ) (hσ : σ.Grows σ') : C.Crowded σ' := by
  have hg := hσ.globals.length_le
  have hh := hσ.heap.length_le
  unfold Crowded at *
  omega

theorem ClassAt.grow {c : Class} {heap heap' : List Int64} (h : C.ClassAt Γ c heap a) (hp : heap <+: heap') :
    C.ClassAt Γ c heap' a := by
  refine ⟨h.1, fun ms m ms' hms => ?_⟩
  obtain ⟨t, hf, ht⟩ := h.2 ms m ms' hms
  exact ⟨t, hf, getElem?_of_isPrefix ht hp⟩

theorem Holds.grow {k : Int} (h : C.Holds σ s a k w) (hσ : σ.Grows σ') (hs : s <:+ s') : C.Holds σ' s' a k w := by
  obtain ⟨b, hb, hcell⟩ := h
  exact ⟨b, hb, hcell.grow hs hσ.heap⟩

mutual

theorem Shown.grow (hσ : σ.Grows σ') {v : Value} {w : Int64} : C.Shown σ v w → C.Shown σ' v w
  | .int => .int
  | .object ho => .object (getElem?_of_isPrefix ho hσ.objects)
  | .func hl hf => .func (Located.grow hσ hl (List.suffix_refl _)) hf
  | .cls => .cls

theorem Located.grow (hσ : σ.Grows σ') {s s' : List Int64} {env : Env} {Γ : Context} {a : Nat} :
    C.Located σ s env Γ a → s <:+ s' → C.Located σ' s' env Γ a
  | .top, _ => .top
  | .value hl hk hh hv, hs => .value (Located.grow hσ hl hs) hk (hh.grow hσ (hσ.stack hs _)) (Shown.grow hσ hv)
  | .func hl hf hh, hs => .func (Located.grow hσ hl hs) hf (hh.grow hσ (hσ.stack hs _))
  | .cls hl hc hh, hs => .cls (Located.grow hσ hl hs) (fun hn => (hc fun hcr => hn (hcr.mono hσ)).grow hσ.heap)
      (hh.grow hσ hσ.globals)
  | .frame hl hc, hs => .frame (Located.grow hσ hl hs) (hc.grow hs hσ.heap)
  | .object hl ho hcls henv hm, hs => .object (Located.grow hσ hl hs) (getElem?_of_isPrefix ho hσ.objects) hcls henv hm

end

theorem Located.eq_size {env : Env} {blk : Block} {a : Nat} : C.Located σ s env [blk] a → a = C.size
  | .top => rfl
  | .value hl _ _ _ => Located.eq_size hl
  | .func hl _ _ => Located.eq_size hl
  | .cls _ _ _ => rfl

/-- Around the end of memory the stack does not matter. -/
theorem Located.outermost {s s' : List Int64} {env : Env} {blk : Block} {a : Nat} :
    C.Located σ s env [blk] a → C.Located σ s' env [blk] a
  | .top => .top
  | .value hl hk hh hv => .value (Located.outermost hl) hk hh hv
  | .func hl hf hh => .func (Located.outermost hl) hf hh
  | .cls hl hc hh => .cls (Located.outermost hl) hc hh

/-! ## Objects -/

variable (C) in
/-- An object lies around the address: its fields below it, at it the address of the table of its class. -/
structure ObjectAt (σ : Store) (o : Object) (a : Nat) : Prop where
  length : o.fields.length = o.cls.fields.length
  fields : ∀ {i : Nat} {v : Value}, o.fields[i]? = some v → ∃ b w, b + i + 1 = a ∧ σ.heap[b]? = some w ∧ C.Shown σ v w
  table : ∃ T blk, σ.heap[a]? = some (Int64.ofNat T) ∧ C.ClassAt [blk] o.cls σ.heap T ∧ C.Located σ [] o.env [blk] C.size

variable (C) in
/-- All objects lie in the heap, each at its own address. -/
structure Sound (σ : Store) : Prop where
  objects : ∀ {id : Nat} {o : Object} {a : Nat}, σ.objects[id]? = some (o, a) → C.ObjectAt σ o a
  distinct : (σ.objects.map (·.2)).Nodup

theorem ObjectAt.grow {o : Object} (h : C.ObjectAt σ o a) (hσ : σ.Grows σ') : C.ObjectAt σ' o a := by
  refine ⟨h.length, fun hv => ?_, ?_⟩
  · obtain ⟨b, w, hb, hw, hshown⟩ := h.fields hv
    exact ⟨b, w, hb, getElem?_of_isPrefix hw hσ.heap, hshown.grow hσ⟩
  · obtain ⟨T, blk, hT, hclass, hlocated⟩ := h.table
    exact ⟨T, blk, getElem?_of_isPrefix hT hσ.heap, hclass.grow hσ.heap, hlocated.grow hσ (List.suffix_refl _)⟩

end Setting

end Reference

end Fool
