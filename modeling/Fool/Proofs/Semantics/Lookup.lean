import Fool.Proofs.Semantics.Anchors

/-!
# Names in memory

What a name means in its context, it is in the surroundings, and it lies where its entry says: as many access links
away as there are scopes in between (`Reaches`), at its offset there (`Found`). `Located.find` proves this for a place
whose surroundings are located. Inside a class what is global is found without access links.
-/

namespace Fool

namespace Context

variable {Γ : Context} {blk : Block} {D : Declared} {name : Symbol}

/-- No block declares a name twice. -/
def Distinct (Γ : Context) : Prop := ∀ b ∈ Γ, (b.declared.map (·.name)).Nodup

theorem Distinct.tail (h : Distinct (blk :: Γ)) : Γ.Distinct := fun b hb => h b (List.mem_cons_of_mem _ hb)

theorem Distinct.of_declare (h : Distinct (blk.declare D :: Γ)) : Distinct (blk :: Γ) := by
  intro b hb
  rcases List.mem_cons.1 hb with rfl | hb
  · have := h _ List.mem_cons_self
    rw [Block.declare, List.map_append] at this
    exact (List.nodup_append.1 this).1
  · exact h.tail b hb

/-- A name that is new to its block. -/
theorem Distinct.lookup?_declare (h : Distinct (blk.declare D :: Γ)) : lookup? (blk.declare D :: Γ) name =
    if D.name = name then some ⟨D.kind, Γ.length, Block.offset blk.kind blk.declared D, D.ty⟩
    else lookup? (blk :: Γ) name := by
  have hmeaning : (Block.mk blk.kind (blk.declared ++ [D])).meaning? Γ.length name = _ :=
    Block.meaning?_append blk.declared D name
  rw [lookup?, lookup?, Block.declare, hmeaning]
  by_cases hname : D.name = name
  · have hnone : (Block.mk blk.kind blk.declared).meaning? Γ.length name = none := by
      refine Block.meaning?_eq_none.2 ?_
      rintro ⟨D', hD', hname'⟩
      have hdistinct := h _ List.mem_cons_self
      rw [Block.declare, List.map_append] at hdistinct
      exact (List.nodup_append.1 hdistinct).2.2 D'.name (List.mem_map_of_mem hD') D.name (by simp)
        (hname'.trans hname.symm)
    rw [hnone, if_pos hname, if_pos hname, Option.none_or, Option.some_or]
  · rw [if_neg hname, if_neg hname, Option.or_none]

end Context

namespace Reference

namespace Setting

variable (C : Setting)

/-- Seen from a place at the address `a`, the frame or object at some depth lies at `b`. -/
def Reaches (σ : Store) (s : List Int64) (Γ : Context) (a depth b : Nat) : Prop :=
  if Γ.inClass ∧ depth = 0 then b = C.size else Path C.size s σ.heap (Γ.depth - depth) a b

/-- What a name means lies at the offset of its entry, counted from the address of its frame or object. -/
inductive Found (σ : Store) (s : List Int64) (name : Symbol) : Entry → Nat → Env → Prop
  | value {kind : EntryKind} {x : Symbol} {ty : Ty} {v : Value} {outer : Env} {depth b : Nat} {k : Int} {w : Int64} :
      kind = .var ∨ kind = .param → C.Holds σ s b k w → C.Shown σ v w →
      Found σ s name ⟨kind, depth, k, ty.checked⟩ b (.value kind x ty v outer)
  | func {f : Function} {outer : Env} {Γ : Context} {ty : CheckedType} {b t : Nat} {k : Int} :
      C.Located σ s (.func f outer) Γ b → C.FunctionAt Γ f t → C.Holds σ s b k (Int64.ofNat t) →
      Found σ s name ⟨.func, Γ.depth, k, ty⟩ b (.func f outer)
  | cls {c : Class} {outer : Env} {ty : CheckedType} {depth b : Nat} {k : Int} {w : Int64} : C.Holds σ s b k w →
      Found σ s name ⟨.cls, depth, k, ty⟩ b (.cls c outer)
  | object {id : Nat} {c : Class} {methods : List Function} {outer : Env} {entry : Entry} {o : Object} {b : Nat} :
      σ.objects[id]? = some (o, b) → o.cls = c → o.env = outer → methods <+: c.methods →
      ((c.block methods).declared.map (·.name)).Nodup → (c.block methods).meaning? 1 name = some entry →
      Found σ s name entry b (.object id c methods outer)

/-- The name is in the surroundings, and it lies where the entry says, in the scope that the surroundings say. -/
def Finds (σ : Store) (s : List Int64) (env : Env) (Γ : Context) (a : Nat) (name : Symbol) (entry : Entry) : Prop :=
  ∃ node b, env.find? name = some node ∧ entry.depth < Γ.length ∧ C.Reaches σ s Γ a entry.depth b ∧
    C.Found σ s name entry b node ∧ C.Within σ s env (Int64.ofNat a) node (Int64.ofNat b)

variable {C} {σ : Store} {s : List Int64} {env outer : Env} {Γ : Context} {a b : Nat} {name : Symbol} {entry : Entry}
variable {blk : Block} {D : Declared}

theorem Reaches.grow {σ' : Store} {s' : List Int64} {depth : Nat} (h : C.Reaches σ s Γ a depth b) (hσ : σ.Grows σ')
    (hs : s <:+ s') : C.Reaches σ' s' Γ a depth b := by
  unfold Reaches at h ⊢
  split at h
  · rwa [if_pos ‹_›]
  · rw [if_neg ‹_›]
    exact h.grow hs hσ.heap

theorem Located.ne_nil : C.Located σ s env Γ a → Γ ≠ []
  | .top | .value .. | .func .. | .cls .. | .frame .. | .object .. => List.cons_ne_nil _ _

theorem exists_block (hne : Γ ≠ []) (h : Γ.depth = 0) : ∃ blk, Γ = [blk] := by
  match Γ, hne, h with
  | [blk], _, _ => exact ⟨blk, rfl⟩

/-- A function of the program is a value. -/
theorem Located.shown_func {f : Function} {t : Nat} (h : C.Located σ s (.func f outer) Γ a) (hf : C.FunctionAt Γ f t)
    (hdepth : Γ.depth = 0) : C.Shown σ (.func f outer) (Int64.ofNat t) := by
  obtain ⟨blk, rfl⟩ := exists_block h.ne_nil hdepth
  obtain rfl := h.eq_size
  exact .func h.outermost hf

theorem Located.reaches_self (h : C.Located σ s env Γ a) : C.Reaches σ s Γ a Γ.depth a := by
  unfold Reaches
  split
  · rename_i hcond
    obtain ⟨blk, rfl⟩ := exists_block h.ne_nil hcond.2
    exact h.eq_size
  · rw [Nat.sub_self]
    exact rfl

theorem Holds.of_globals {k : Int} {w : Int64} (hg : σ.globals <:+ s) : ∀ {Γ : Context},
    C.Holds σ (σ.stack s Γ) a k w → C.Holds σ s a k w
  | [], h => h.grow (.refl σ) hg
  | _ :: _, h => h

/-- A name is found at the last declaration, or in the surroundings of that. -/
theorem Located.find_declare (h : C.Located σ s env (blk.declare D :: Γ) a)
    (hd : Context.Distinct (blk.declare D :: Γ)) (henv : env.find? name = if D.name = name then some env else outer.find? name)
    (hself : D.name = name → C.Found σ s name ⟨D.kind, Γ.length, Block.offset blk.kind blk.declared D, D.ty⟩ a env)
    (hchain : ∀ {chain w}, C.Anchored σ s env chain w → C.Anchored σ s outer chain w)
    (hrest : Context.lookup? (blk :: Γ) name = some entry → C.Finds σ s outer (blk :: Γ) a name entry)
    (hlook : Context.lookup? (blk.declare D :: Γ) name = some entry) :
    C.Finds σ s env (blk.declare D :: Γ) a name entry := by
  rw [hd.lookup?_declare] at hlook
  split at hlook
  · cases hlook
    exact ⟨env, a, by rw [henv, if_pos ‹_›], Nat.lt_succ_self _, h.reaches_self, hself ‹_›, within_self⟩
  · obtain ⟨node, b, hfind, hdepth, hreach, hfound, hwithin⟩ := hrest hlook
    exact ⟨node, b, by rw [henv, if_neg ‹_›, hfind], hdepth, hreach, hfound,
      fun hused chain h => hwithin hused chain (hchain h)⟩

/-- What is found in the surroundings of a frame. -/
theorem Finds.frame (h : C.Finds σ s outer Γ b name entry) (hcell : Cell C.size s σ.heap a (Int64.ofNat b)) :
    C.Finds σ s (.frame outer) (⟨.function, []⟩ :: Γ) a name entry := by
  obtain ⟨node, b', hfind, hdepth, hreach, hfound, hwithin⟩ := h
  refine ⟨node, b', hfind, Nat.lt_succ_of_lt hdepth, ?_, hfound, hwithin.frame hcell (Env.scopes_find? _ hfind)⟩
  have hin : Context.inClass (⟨.function, []⟩ :: Γ) = Γ.inClass := rfl
  unfold Reaches at hreach ⊢
  rw [hin]
  split
  · rwa [if_pos ‹_›] at hreach
  · rw [if_neg ‹_›] at hreach
    have hhops : Context.depth (⟨.function, []⟩ :: Γ) - entry.depth = Γ.depth - entry.depth + 1 := by
      simp only [Context.depth, List.length_cons]
      omega
    rw [hhops]
    exact ⟨b, hcell, hreach⟩

/-- What a class declares is found at the object, and what is global behind it. -/
theorem Located.find_object {c : Class} {methods : List Function} {id : Nat}
    (h : C.Located σ s (.object id c methods outer) [c.block methods, blk] a)
    (hd : Context.Distinct [c.block methods, blk])
    (hrest : Context.lookup? [blk] name = some entry → C.Finds σ s outer [blk] C.size name entry)
    (hlook : Context.lookup? [c.block methods, blk] name = some entry) :
    C.Finds σ s (.object id c methods outer) [c.block methods, blk] a name entry := by
  have hhas : (c.block methods).Has name ↔ name ∈ c.fields.map (·.name) ∨ name ∈ methods.map (·.name) := by
    simp [Block.Has, Class.block, Declared.members, Function.declared, or_and_right, exists_or]
  rw [Context.lookup?] at hlook
  rcases Option.or_eq_some_iff.1 hlook with hown | ⟨hnone, hlook⟩
  · have hname := hhas.1 (by_contra fun hn => by rw [Block.meaning?_eq_none.2 hn] at hown; cases hown)
    have hdepth : entry.depth = 1 := by
      obtain ⟨_, _, _, -, -, -, rfl⟩ := Block.meaning?_eq_some.1 hown
      rfl
    have hreach : C.Reaches σ s [c.block methods, blk] a entry.depth a := by
      rw [hdepth]
      exact h.reaches_self
    cases h with
    | object hl ho hcls henv hm =>
      exact ⟨_, a, by rw [Env.find?, if_pos hname], hdepth ▸ Nat.lt_succ_self 1, hreach,
        .object ho hcls henv hm (hd _ List.mem_cons_self) hown, within_self⟩
  · obtain ⟨node, b, hfind, hdepth, hreach, hfound, hwithin⟩ := hrest hlook
    have hzero : entry.depth = 0 := Nat.lt_one_iff.1 hdepth
    have hnone' := fun hname => Block.meaning?_eq_none.1 hnone (hhas.2 hname)
    refine ⟨node, b, by rw [Env.find?, if_neg hnone', hfind], Nat.lt_succ_of_lt hdepth, ?_, hfound,
      hwithin.object (Env.scopes_find? _ hfind)⟩
    unfold Reaches at hreach ⊢
    rw [if_pos ⟨rfl, hzero⟩]
    split at hreach
    · exact hreach
    · rw [hzero] at hreach
      exact hreach.symm

/-- **A name is found where its entry says.** -/
theorem Located.find (hg : σ.globals <:+ s) {env : Env} {Γ : Context} {a : Nat} : C.Located σ s env Γ a → Γ.Distinct →
    Γ.lookup? name = some entry → C.Finds σ s env Γ a name entry
  | .top, _, hlook => by cases hlook
  | .value hl hk hh hv, hd, hlook =>
    (Located.value hl hk hh hv).find_declare hd rfl (fun _ => .value hk (hh.of_globals hg) hv) Anchored.of_value
      (Located.find hg hl hd.of_declare) hlook
  | .func hl hf hh, hd, hlook =>
    have h := Located.func hl hf hh
    h.find_declare hd rfl (fun _ => .func h hf (hh.of_globals hg)) Anchored.of_func (Located.find hg hl hd.of_declare)
      hlook
  | .cls hl hc hh, hd, hlook =>
    (Located.cls hl hc hh).find_declare hd rfl (fun _ => .cls (hh.grow (.refl σ) hg)) Anchored.of_cls
      (Located.find hg hl hd.of_declare) hlook
  | .frame hl hc, hd, hlook => (Located.find hg hl hd.tail hlook).frame hc
  | .object hl ho hcls henv hm, hd, hlook =>
    (Located.object hl ho hcls henv hm).find_object hd (Located.find hg hl hd.tail) hlook

/-! ## Classes -/

variable (C) in
/-- The class with the name is in the surroundings, and the address of its table lies at the offset. -/
def FindsClass (σ : Store) (env : Env) (name : Symbol) (k : Int) : Prop :=
  ∃ c outer blk T, env.class? name = some (c, .cls c outer) ∧ C.Located σ [] (.cls c outer) [blk] C.size ∧
    (¬C.Crowded σ → C.ClassAt [blk] c σ.heap T) ∧ C.Holds σ σ.globals C.size k (Int64.ofNat T)

theorem FindsClass.behind {k : Int} (h : C.FindsClass σ outer name k) (henv : env.class? name = outer.class? name) :
    C.FindsClass σ env name k := by
  unfold FindsClass
  rwa [henv]

/-- What a name means in the outermost block is its last declaration there, or one before. -/
theorem meaning?_of_declare {g : Block} (hd : Context.Distinct (blk.declare D :: Γ))
    (hlast : (blk.declare D :: Γ).getLast? = some g) (hmeaning : g.meaning? 0 name = some entry) :
    (Γ = [] ∧ D.name = name ∧ entry = ⟨D.kind, 0, Block.offset blk.kind blk.declared D, D.ty⟩) ∨
      (Γ = [] → D.name ≠ name) ∧ ∃ g', (blk :: Γ).getLast? = some g' ∧ g'.meaning? 0 name = some entry := by
  cases Γ with
  | nil =>
    obtain rfl : blk.declare D = g := Option.some.inj hlast
    have hlook : Context.lookup? [blk.declare D] name = some entry := by
      rw [Context.lookup?]
      exact Option.or_eq_some_iff.2 (.inl hmeaning)
    rw [hd.lookup?_declare] at hlook
    split at hlook
    · exact .inl ⟨rfl, ‹_›, (Option.some.inj hlook).symm⟩
    · rw [Context.lookup?, Context.lookup?, Option.or_none] at hlook
      exact .inr ⟨fun _ => ‹_›, blk, rfl, hlook⟩
  | cons b Γ => exact .inr ⟨fun h => absurd h (List.cons_ne_nil b Γ), g, hlast, hmeaning⟩

/-- **A class is found where the outermost block has it.** -/
theorem Located.find_class (hkind : entry.kind = .cls) {env : Env} {Γ : Context} {a : Nat} {g : Block} :
    C.Located σ s env Γ a → Γ.Distinct → Γ.getLast? = some g → g.meaning? 0 name = some entry →
    C.FindsClass σ env name entry.offset
  | .top, _, hlast, hmeaning => by
    cases hlast
    cases hmeaning
  | .value hl hk _ _, hd, hlast, hmeaning => by
    rcases meaning?_of_declare hd hlast hmeaning with ⟨-, -, rfl⟩ | ⟨-, g', hlast, hmeaning⟩
    · rcases hk with rfl | rfl <;> cases hkind
    · exact (Located.find_class hkind hl hd.of_declare hlast hmeaning).behind rfl
  | .func hl _ _, hd, hlast, hmeaning => by
    rcases meaning?_of_declare hd hlast hmeaning with ⟨-, -, rfl⟩ | ⟨-, g', hlast, hmeaning⟩
    · cases hkind
    · exact (Located.find_class hkind hl hd.of_declare hlast hmeaning).behind rfl
  | .cls hl hc hh, hd, hlast, hmeaning => by
    rcases meaning?_of_declare hd hlast hmeaning with ⟨-, hname, rfl⟩ | ⟨hne, g', hlast, hmeaning⟩
    · exact ⟨_, _, _, _, if_pos hname, (Located.cls hl hc hh).outermost, hc, hh⟩
    · exact (Located.find_class hkind hl hd.of_declare hlast hmeaning).behind (if_neg (hne rfl))
  | .frame hl _, hd, hlast, hmeaning =>
    (Located.find_class hkind hl hd.tail ((List.getLast?_cons_of_ne_nil hl.ne_nil).symm.trans hlast) hmeaning).behind rfl
  | .object hl _ _ _ _, hd, hlast, hmeaning =>
    (Located.find_class hkind hl hd.tail hlast hmeaning).behind rfl

/-! ## Values of names -/

variable {node : Env} {w : World}

/-- The first field with a name, with its value. -/
theorem find?_zip {fields : List TypedName} {values : List Value} {x : TypedName} {v : Value}
    (h : ((fields.zip values).find? fun q => q.1.name = name) = some (x, v)) :
    ∃ i : Nat, fields[i]? = some x ∧ values[i]? = some v ∧ x.name = name := by
  have hname := List.find?_some h
  obtain ⟨i, hi⟩ := List.getElem?_of_mem (List.mem_of_find?_eq_some h)
  obtain ⟨hx, hv⟩ := List.getElem?_zip_eq_some.1 hi
  exact ⟨i, hx, hv, by simpa using hname⟩

variable (C) in
/-- The name has a value, which lies at the offset of the entry. -/
def Holding (σ : Store) (s : List Int64) (entry : Entry) (b : Nat) (ty : Ty) (v : Value) : Prop :=
  entry.ty = ty.checked ∧ (entry.kind = .var ∨ entry.kind = .param ∨ entry.kind = .field) ∧
    ∃ word, C.Holds σ s b entry.offset word ∧ C.Shown σ v word

/-- **The value of a variable, a parameter or a field lies where the entry says.** -/
theorem Found.held (h : C.Found σ s name entry b node) (hs : C.Sound σ) (hw : w.objects = σ.values)
    (hfind : env.find? name = some node) : held env name w = .error .illFormed w ∨
      ∃ ty v, held env name w = .ok (ty, v) w ∧ C.Holding σ s entry b ty v := by
  unfold Reference.held
  rw [hfind]
  cases h with
  | value hk hh hv =>
    refine .inr ⟨_, _, rfl, rfl, ?_, _, hh, hv⟩
    rcases hk with rfl | rfl <;> simp
  | func => exact .inl rfl
  | cls => exact .inl rfl
  | object ho hcls henv hm hd hmeaning =>
    rename_i id c methods outer o
    have hval : w.objects[id]? = some o := by rw [hw, Store.values, List.getElem?_map, ho]; rfl
    simp only [field, get_bind_run, hval, Option.bind_some]
    cases hq : (c.fields.zip o.fields).find? fun q => q.1.name = name with
    | none => exact .inl rfl
    | some q =>
      obtain ⟨x, v⟩ := q
      obtain ⟨i, hx, hv, rfl⟩ := find?_zip hq
      rw [Class.meaning?_field hd hx] at hmeaning
      obtain rfl := Option.some.inj hmeaning
      obtain ⟨b', word, hb, hword, hshown⟩ := (hs.objects ho).fields hv
      exact .inr ⟨_, _, rfl, rfl, by simp, word, ⟨b', by simp only; omega, .inl hword⟩, hshown⟩

/-- A method of a list, with those up to it. -/
theorem method?_eq_some {methods upTo : List Function} {m : Function} (h : method? methods name = some (m, upTo)) :
    ∃ ms ms', methods = ms ++ m :: ms' ∧ upTo = ms ++ [m] ∧ m.name = name := by
  obtain ⟨m', hm, heq⟩ := Option.map_eq_some_iff.1 h
  cases heq
  obtain ⟨hname, ms, ms', rfl, hbefore⟩ := List.find?_eq_some_iff_append.1 hm
  refine ⟨ms, ms', rfl, ?_, by simpa using hname⟩
  have hne : ∀ x ∈ ms, decide (x.name ≠ name) = true := by simpa using hbefore
  have hstop : decide (m.name ≠ name) = false := by simpa using hname
  rw [List.takeWhile_append_of_pos hne, List.takeWhile_cons, hstop]
  simp

end Setting

end Reference

end Fool
