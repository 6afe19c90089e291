import Fool.Proofs.Semantics.Stages
import Fool.Proofs.Semantics.Store

/-!
# Scopes in memory

`Setting.Anchored` says that the scopes of surroundings lie where their anchors say, each behind the access link of the
one inside it. What a name means is further out, in scopes that are known already (`Setting.Within`).
-/

namespace Fool

/-- A cell holds one word. -/
theorem Cell.unique {M a : Nat} {s H : List Int64} {v w : Int64} (h : Cell M s H a v) (h' : Cell M s H a w)
    (hle : s.length + H.length ≤ M) : v = w := by
  rcases h with h | ⟨i, hi, ha⟩ <;> rcases h' with h' | ⟨j, hj, ha'⟩
  · exact Option.some.inj (h.symm.trans h')
  · have := (List.getElem?_eq_some_iff.1 h).1
    omega
  · have := (List.getElem?_eq_some_iff.1 h').1
    omega
  · obtain rfl : i = j := by omega
    exact Option.some.inj (hi.symm.trans hj)

theorem Cell.lt {M a : Nat} {s H : List Int64} {w : Int64} (h : Cell M s H a w) (hle : s.length + H.length ≤ M) :
    a < M := by
  rcases h with h | ⟨i, hi, ha⟩
  · have := (List.getElem?_eq_some_iff.1 h).1
    omega
  · have := (List.getElem?_eq_some_iff.1 hi).1
    omega

namespace Reference

/-- Surroundings further out have no more scopes. -/
theorem Env.scopes_find? {name : Symbol} {node : Env} : ∀ env : Env, env.find? name = some node → node.scopes ≤ env.scopes
  | .top, h => by cases h
  | .value _ _ _ _ outer, h => by
    rw [find?] at h
    split at h
    · cases h
      exact Nat.le_refl _
    · exact scopes_find? outer h
  | .func _ outer, h => by
    rw [find?] at h
    split at h
    · cases h
      exact Nat.le_refl _
    · exact scopes_find? outer h
  | .cls _ outer, h => by
    rw [find?] at h
    split at h
    · cases h
      exact Nat.le_refl _
    · exact scopes_find? outer h
  | .frame outer, h => Nat.le_succ_of_le (scopes_find? outer h)
  | .object _ _ _ outer, h => by
    rw [find?] at h
    split at h
    · cases h
      exact Nat.le_refl _
    · exact Nat.le_succ_of_le (scopes_find? outer h)

theorem rtake_cons_of_le {α : Type} {x : α} {xs : List α} {n : Nat} (h : n ≤ xs.length) :
    (x :: xs).rtake n = xs.rtake n := by
  rw [List.rtake, List.rtake, List.length_cons, Nat.succ_sub h, List.drop_succ_cons]

namespace Setting

variable (C : Setting)

/-- The word is the address of the frame or object. -/
def Addresses (σ : Store) : Anchor → Int64 → Prop
  | .frame h, w => ∃ a, a + h = C.size ∧ w = Int64.ofNat a
  | .object id, w => C.Shown σ (.object id) w

/-- **The scopes lie where their anchors say,** the innermost one at the address. -/
inductive Anchored (σ : Store) (s : List Int64) : Env → List Anchor → Int64 → Prop
  | top : Anchored σ s .top [.frame 0] (Int64.ofNat C.size)
  | value {kind : EntryKind} {name : Symbol} {ty : Ty} {v : Value} {outer : Env} {chain : List Anchor} {w : Int64} :
      Anchored σ s outer chain w → Anchored σ s (.value kind name ty v outer) chain w
  | func {f : Function} {outer : Env} {chain : List Anchor} {w : Int64} :
      Anchored σ s outer chain w → Anchored σ s (.func f outer) chain w
  | cls {c : Class} {outer : Env} {chain : List Anchor} {w : Int64} :
      Anchored σ s outer chain w → Anchored σ s (.cls c outer) chain w
  | frame {outer : Env} {chain : List Anchor} {link : Int64} {a h : Nat} : Anchored σ s outer chain link →
      Cell C.size s σ.heap a link → a + h = C.size → Anchored σ s (.frame outer) (.frame h :: chain) (Int64.ofNat a)
  | object {id : Nat} {c : Class} {methods : List Function} {outer : Env} {chain : List Anchor} {o : Object} {a : Nat} :
      Anchored σ s outer chain (Int64.ofNat C.size) → σ.objects[id]? = some (o, a) →
      Anchored σ s (.object id c methods outer) (.object id :: chain) (Int64.ofNat a)

/-- From surroundings at the one address others are seen at the other one. -/
def Within (σ : Store) (s : List Int64) (env : Env) (w : Int64) (node : Env) (w' : Int64) : Prop :=
  s.length + σ.heap.length ≤ C.size → ∀ chain, C.Anchored σ s env chain w → C.Anchored σ s node (surround chain node) w'

variable {C} {σ σ' : Store} {s s' : List Int64} {env outer node : Env} {chain : List Anchor} {w : Int64} {a : Nat}

theorem Anchored.grow (h : C.Anchored σ s env chain w) (hσ : σ.Grows σ') (hs : s <:+ s') : C.Anchored σ' s' env chain w := by
  induction h with
  | top => exact .top
  | value _ ih => exact .value ih
  | func _ ih => exact .func ih
  | cls _ ih => exact .cls ih
  | frame _ hc ha ih => exact .frame ih (hc.grow hs hσ.heap) ha
  | object _ ho ih => exact .object ih (getElem?_of_isPrefix ho hσ.objects)

theorem Anchored.length (h : C.Anchored σ s env chain w) : chain.length = env.scopes + 1 := by
  induction h with
  | top => rfl
  | value _ ih | func _ ih | cls _ ih => exact ih
  | frame _ _ _ ih | object _ _ ih => exact congrArg (· + 1) ih

theorem Anchored.surround_self (h : C.Anchored σ s env chain w) : surround chain env = chain := by
  have hlength := h.length
  have hall : ∀ xs : List Anchor, xs.rtake xs.length = xs := fun xs => by rw [List.rtake, Nat.sub_self, List.drop_zero]
  cases h with
  | object hl ho =>
    rw [surround, ← hl.length, rtake_cons_of_le (Nat.le_refl _), hall]
  | _ =>
    rw [surround, ← hlength, hall]
    nofun

theorem Anchored.of_value {kind : EntryKind} {name : Symbol} {ty : Ty} {v : Value} :
    C.Anchored σ s (.value kind name ty v outer) chain w → C.Anchored σ s outer chain w
  | .value h => h

theorem Anchored.of_func {f : Function} : C.Anchored σ s (.func f outer) chain w → C.Anchored σ s outer chain w
  | .func h => h

theorem Anchored.of_cls {c : Class} : C.Anchored σ s (.cls c outer) chain w → C.Anchored σ s outer chain w
  | .cls h => h

/-- The innermost scope is the frame or object at the address. -/
theorem Anchored.head (h : C.Anchored σ s env chain w) : ∃ x, chain.head? = some x ∧ C.Addresses σ x w := by
  induction h with
  | top => exact ⟨_, rfl, C.size, rfl, rfl⟩
  | value _ ih | func _ ih | cls _ ih => exact ih
  | frame _ _ ha _ => exact ⟨_, rfl, _, ha, rfl⟩
  | object _ ho _ => exact ⟨_, rfl, .object ho⟩

/-- The outermost scope is the frame of the program. -/
theorem Anchored.rtake_one (h : C.Anchored σ s env chain w) : chain.rtake 1 = [.frame 0] := by
  induction h with
  | top => rfl
  | value _ ih | func _ ih | cls _ ih => exact ih
  | frame hl _ _ ih | object hl _ ih =>
    rw [rtake_cons_of_le (by rw [hl.length]; omega), ih]

/-- Surroundings of the program lie at the end of memory. -/
theorem Located.anchored {env : Env} {blk : Block} {a : Nat} : C.Located σ s env [blk] a →
    env.scopes = 0 ∧ C.Anchored σ s' env [.frame 0] (Int64.ofNat C.size)
  | .top => ⟨rfl, .top⟩
  | .value hl _ _ _ => ⟨(Located.anchored hl).1, .value (Located.anchored hl).2⟩
  | .func hl _ _ => ⟨(Located.anchored hl).1, .func (Located.anchored hl).2⟩
  | .cls hl _ _ => ⟨(Located.anchored hl).1, .cls (Located.anchored hl).2⟩

/-- Located surroundings have their scopes somewhere. -/
theorem Located.exists_anchored (hused : s.length + σ.heap.length ≤ C.size) {env : Env} {Γ : Context} {a : Nat} :
    C.Located σ s env Γ a → ∃ chain, C.Anchored σ s env chain (Int64.ofNat a)
  | .top => ⟨_, .top⟩
  | .value hl _ _ _ => (Located.exists_anchored hused hl).imp fun _ => .value
  | .func hl _ _ => (Located.exists_anchored hused hl).imp fun _ => .func
  | .cls hl _ _ => ⟨_, .cls (Located.anchored hl).2⟩
  | .frame hl hc => by
    obtain ⟨chain, hchain⟩ := Located.exists_anchored hused hl
    have hlt := hc.lt hused
    exact ⟨_, .frame hchain hc (Nat.add_sub_cancel' (Nat.le_of_lt hlt))⟩
  | .object hl ho _ _ _ => ⟨_, .object (Located.anchored hl).2 ho⟩

/-! ## New scopes -/

/-- Parameters lie in the frame that is there already. -/
theorem Anchored.params (ps : List (TypedName × Value)) (ha : C.Anchored σ s env chain w) :
    C.Anchored σ s (bindParams env ps) chain w := by
  induction ps generalizing env with
  | nil => exact ha
  | cons p ps ih => exact ih (.value ha)

/-- The frame of what is called lies at the access link; the address to return to is below it. -/
theorem Anchored.enter {a b : Nat} (ret : Int64) (ha : C.Anchored σ s outer chain (Int64.ofNat b))
    (hlink : a + (Int64.ofNat b :: s).length = C.size) :
    C.Anchored σ (ret :: Int64.ofNat b :: s) (.frame outer) (.frame (s.length + 1) :: chain) (Int64.ofNat a) := by
  have hsuffix : s <:+ ret :: Int64.ofNat b :: s := (List.suffix_cons _ _).trans (List.suffix_cons _ _)
  refine .frame (ha.grow (.refl σ) hsuffix) (.inr ⟨1, rfl, ?_⟩) hlink
  simp only [List.length_cons] at hlink ⊢
  omega

/-- A declaration is added to what is visible. -/
theorem Anchored.declare {n : Nat} {d : DeclRef} {env' : Env} {u u' : World} (ha : C.Anchored σ s env chain w)
    (hd : Reference.declare C.program.arena (expr C.program.arena n) env d u = .ok env' u') : C.Anchored σ s env' chain w := by
  unfold Reference.declare at hd
  cases hx : C.program.arena.decl? d with
  | none =>
    rw [hx] at hd
    cases hd
  | some x =>
    rw [hx] at hd
    cases x with
    | varDecl v =>
      obtain ⟨value, w₁, -, hd⟩ := exists_of_bind hd
      cases hd
      exact .value ha
    | funDecl f =>
      cases hd
      exact .func ha
    | classDecl cls =>
      cases hd
      exact .cls ha

/-! ## What is seen from within -/

theorem within_self : C.Within σ s env w env w := fun _ chain h => by rwa [h.surround_self]

/-- Fewer scopes than there are outside are those outside. -/
theorem surround_cons {x : Anchor} (h : node.scopes + 1 ≤ chain.length) : surround (x :: chain) node = surround chain node := by
  cases node with
  | object id c methods outer =>
    rw [Env.scopes] at h
    rw [surround, surround, rtake_cons_of_le (by omega)]
  | _ => rw [surround, surround, rtake_cons_of_le h] <;> nofun

/-- What is seen from outside a frame is seen from within. -/
theorem Within.frame {w' : Int64} (h : C.Within σ s outer w node w') (hcell : Cell C.size s σ.heap a w)
    (hscopes : node.scopes ≤ outer.scopes) : C.Within σ s (.frame outer) (Int64.ofNat a) node w' := by
  intro hused chain hchain
  have hlt := hcell.lt hused
  have hbound := C.bound
  generalize hw : Int64.ofNat a = fp at hchain
  cases hchain with
  | @frame _ chain link a₂ n hl hc ha =>
    obtain rfl := Address.ofNat_injective (by omega) (by omega) hw
    obtain rfl := hc.unique hcell hused
    rw [surround_cons (by rw [hl.length]; omega)]
    exact h hused chain hl

/-- What is seen from behind a class is seen from within its objects. -/
theorem Within.object {id : Nat} {c : Class} {methods : List Function} {w' : Int64}
    (h : C.Within σ s outer (Int64.ofNat C.size) node w') (hscopes : node.scopes ≤ outer.scopes) :
    C.Within σ s (.object id c methods outer) w node w' := by
  intro hused chain hchain
  cases hchain with
  | object hl ho =>
    rw [surround_cons (by rw [hl.length]; omega)]
    exact h hused _ hl

theorem surround_of_scopes (h : node.scopes = 0) : surround chain node = chain.rtake 1 := by
  cases node with
  | object id c methods outer => cases h
  | _ =>
    rw [surround, h]
    nofun

/-- What lies at the end of memory is seen from everywhere. -/
theorem Located.within {blk : Block} (h : C.Located σ s' node [blk] a) :
    C.Within σ s env w node (Int64.ofNat C.size) := by
  intro _ chain hchain
  obtain ⟨hscopes, hanchored⟩ := h.anchored
  rwa [surround_of_scopes hscopes, hchain.rtake_one]

/-- So is an object. -/
theorem Located.within_object {Γ : Context} {id : Nat} {c : Class} {methods : List Function}
    (h : C.Located σ s' (.object id c methods outer) Γ a) :
    C.Within σ s env w (.object id c methods outer) (Int64.ofNat a) := by
  intro _ chain hchain
  cases h with
  | object hl ho =>
    obtain ⟨hscopes, hanchored⟩ := hl.anchored
    rw [surround, hscopes, hchain.rtake_one]
    exact .object hanchored ho

end Setting

end Reference

end Fool
