import Fool.Proofs.Semantics.Calls

/-!
# Code that follows the making of objects

The values of the fields are moved from the stack behind the heap, the last one first, and behind them the address of
the table of the class (`will_fields`, `will_object`). This adds an object to those that lie in the heap (`Sound.add`).
-/

namespace Fool

section Pieces

variable {V : Course} {M : Nat} {Q : Config → Prop} {E : MachineError → List Int64 → Prop} {ip b T : Nat} {k : Int}
variable {s H out words : List Int64} {R : Register → Int64}

/-- Values are moved from the stack to the heap, unless memory is almost full. -/
theorem will_fields (hp : V.Placed ip (List.replicate words.length Code.pushToHeap).flatten)
    (hhp : R .hp = Int64.ofNat H.length) (he : ∀ ip, E (.stackOverflow ip) out)
    (h : ∀ xs R', xs = words ∨ M ≤ s.length + (H ++ xs).length + 1 → R' .hp = Int64.ofNat (H ++ xs).length →
      R' .fp = R .fp →
      Will V M Q E ⟨ip + (List.replicate words.length Code.pushToHeap).flatten.length, s, H ++ xs, R', out⟩) :
    Will V M Q E ⟨ip, words ++ s, H, R, out⟩ :=
  backward_will.fields hp hhp he fun xs R' _ hxs hhp' hR' => h xs R' hxs hhp' (hR' .fp (by decide))

/-- The address of a table is written behind fields, and the address of the object is left on the stack; or the cell is
overwritten right after it was written. -/
theorem will_describe {R : Register → Int64} (hp : V.Placed ip (Code.describe (Int64.ofNat M + Int64.ofInt k)))
    (hb : (b : Int) = M + k) (hcell : Cell M s H b (Int64.ofNat T)) (hhp : R .hp = Int64.ofNat H.length)
    (he : ∀ ip, E (.stackOverflow ip) out)
    (h : s.length + H.length + 1 < M → Will V M Q E ⟨ip + 9, Int64.ofNat H.length :: s, H ++ [Int64.ofNat T],
      Function.update R .hp (Int64.ofNat (H.length + 1)), out⟩) : Will V M Q E ⟨ip, s, H, R, out⟩ := by
  obtain ⟨hpush, hload, hfirst, hstore, hsecond, hbump⟩ := hp
  have hlow : Low R (H ++ [Int64.ofNat T]) := ⟨_, by simp, hhp⟩
  refine will_push hpush rfl hhp he fun _ => ?_
  rw [Address.ofNat_add_ofInt hb]
  refine will_loadWord hload hcell (low_of_eq hhp) (will_push hfirst rfl hhp he fun hroom => ?_)
  rw [List.length_cons] at hroom
  rw [hhp]
  refine will_storeWord hstore (raises_of_load hsecond (raises_of_bump hbump)) hhp (will_push_low hsecond rfl hlow (by simp; omega) ?_)
  rw [hhp]
  by_cases hlost : s.length + H.length + 3 = M ∧ Int64.ofNat T ≠ 1
  · refine will_push_low hbump.1 rfl hlow (by simp; omega) ?_
    refine will_collide ⟨hstore, hsecond, hbump.1, hbump.2.1, trivial⟩ hhp ?_ hlost.2
    simp only [List.length_cons]
    omega
  · refine will_bump hbump hhp he fun x hx => ?_
    obtain rfl : x = Int64.ofNat T := by
      rcases hx with rfl | ⟨rfl, hone⟩
      · rfl
      · rw [List.length_cons] at hone
        exact (not_not.1 fun hne => hlost ⟨by omega, Ne.symm hne⟩)
    exact h (by omega)

/-- **An object is made.** -/
theorem will_object (hp : V.Placed ip (Code.object words.length (Int64.ofNat M + Int64.ofInt k)))
    (hb : (b : Int) = M + k) (hcell : Cell M s H b (Int64.ofNat T)) (hhp : R .hp = Int64.ofNat H.length)
    (he : ∀ ip, E (.stackOverflow ip) out)
    (h : ∀ R', s.length + (H ++ words).length + 1 < M → R' .hp = Int64.ofNat ((H ++ words).length + 1) →
      R' .fp = R .fp → Will V M Q E ⟨ip + (Code.object words.length (Int64.ofNat M + Int64.ofInt k)).length,
        Int64.ofNat (H ++ words).length :: s, H ++ words ++ [Int64.ofNat T], R', out⟩) :
    Will V M Q E ⟨ip, words ++ s, H, R, out⟩ := by
  obtain ⟨hfields, hp⟩ := Image.placed_append.1 hp
  refine will_fields hfields hhp he fun xs R' hxs hhp' hfp' => ?_
  refine will_describe hp hb (hcell.grow (List.suffix_refl s) (List.prefix_append H xs)) hhp' he fun hroom => ?_
  obtain rfl : xs = words := hxs.resolve_right (by omega)
  have hgoal := h (Function.update R' .hp (Int64.ofNat ((H ++ xs).length + 1))) hroom (by simp) (by simpa using hfp')
  rwa [Code.object, List.length_append, ← Nat.add_assoc] at hgoal

end Pieces

namespace Reference

/-- An object is added behind the heap. -/
def Store.add (σ : Store) (o : Object) (words : List Int64) (T : Nat) : Store :=
  ⟨σ.globals, σ.heap ++ words ++ [Int64.ofNat T], σ.objects ++ [(o, (σ.heap ++ words).length)]⟩

theorem Store.grows_add (σ : Store) (o : Object) (words : List Int64) (T : Nat) : σ.Grows (σ.add o words T) :=
  ⟨List.suffix_refl _, (List.prefix_append _ _).trans (List.prefix_append _ _), List.prefix_append _ _⟩

namespace Setting

variable {C : Setting} {W : C.Watch} {Γ : Context} {e : ExprRef} {stop ip n T : Nat} {env : Env} {σ : Store} {s : List Int64}
variable {R : Register → Int64} {w : World} {code : Code} {o : Object} {words : List Int64} {blk : Block}

/-- The objects lie in the heap, a new one among them. -/
theorem Sound.add (hs : C.Sound σ) (hlength : o.fields.length = o.cls.fields.length)
    (hfields : List.Forall₂ (C.Shown σ) o.fields words) (hclass : C.ClassAt [blk] o.cls σ.heap T)
    (hl : C.Located σ [] o.env [blk] C.size) : C.Sound (σ.add o words.reverse T) := by
  have hgrows := σ.grows_add o words.reverse T
  have hnew : C.ObjectAt (σ.add o words.reverse T) o (σ.heap ++ words.reverse).length := by
    refine ⟨hlength, fun {i v} hv => ?_, T, blk, ?_, hclass.grow hgrows.heap, hl.grow hgrows (List.suffix_refl _)⟩
    · obtain ⟨word, hword, hshown⟩ := forall₂_getElem? hfields hv
      have hi := (List.getElem?_eq_some_iff.1 hword).1
      refine ⟨σ.heap.length + (words.length - 1 - i), word, ?_, ?_, hshown.grow hgrows⟩
      · rw [List.length_append, List.length_reverse]
        omega
      · refine getElem?_of_isPrefix ?_ (List.prefix_append (σ.heap ++ words.reverse) [Int64.ofNat T])
        rw [List.getElem?_append_right (Nat.le_add_right _ _), Nat.add_sub_cancel_left, List.getElem?_reverse (by omega)]
        rwa [show words.length - 1 - (words.length - 1 - i) = i by omega]
    · rw [Store.add, List.getElem?_append_right (Nat.le_refl _), Nat.sub_self]
      rfl
  refine ⟨fun {id o' a} ho => ?_, ?_⟩
  · rcases List.mem_append.1 (List.mem_of_getElem? ho) with hmem | hmem
    · obtain ⟨i, hi⟩ := List.getElem?_of_mem hmem
      exact (hs.objects hi).grow hgrows
    · cases List.mem_singleton.1 hmem
      exact hnew
  · rw [Store.add, List.map_append, List.map_singleton, List.nodup_append]
    refine ⟨hs.distinct, List.nodup_singleton _, fun a ha b hb heq => ?_⟩
    obtain ⟨⟨o', a'⟩, hmem, rfl⟩ := List.mem_map.1 ha
    obtain ⟨i, hi⟩ := List.getElem?_of_mem hmem
    have hlt := hs.address_lt hi
    rw [List.mem_singleton.1 hb, List.length_append] at heq
    dsimp only at heq
    omega

/-- Each argument has one value. -/
theorem length_mapM {f : ExprRef → EvalM Value} {es : List ExprRef} {vs : List Value} {w w' : World}
    (h : es.mapM f w = .ok vs w') : vs.length = es.length := by
  induction es generalizing vs w with
  | nil =>
    cases h
    rfl
  | cons e es ih =>
    rw [List.mapM_cons] at h
    obtain ⟨v, w₁, -, h⟩ := exists_of_bind h
    obtain ⟨vs', w₂, hvs, h⟩ := exists_of_bind h
    cases h
    exact congrArg (· + 1) (ih hvs)

variable (C) in
/-- An object has been made of the values: it is on the stack, and they are its fields. -/
def GivesObject (σ : Store) (s : List Int64) (R : Register → Int64) (next : Nat) (q : List Value × Value) (w : World)
    (c : Config) : Prop :=
  ∃ σ' R' id o a, C.Keeps σ R σ' R' ∧ w.objects = σ'.values ∧ q.2 = .object id ∧ σ'.objects[id]? = some (o, a) ∧
    o.fields = q.1 ∧ c = ⟨next, Int64.ofNat a :: s, σ'.heap, R', w.output⟩

/-- The making of an object is followed. -/
theorem follows_construct {H : Prop} {name : Symbol} {k : Int} {values : List Value}
    (hp : (W.upTo stop).Embedded ip (Code.object values.length (Int64.ofNat C.size + Int64.ofInt k)))
    (hr : C.Ready env Γ σ s R w) (hclass : C.FindsClass σ env name k) (hvalues : List.Forall₂ (C.Shown σ) values words) :
    Follows (W.upTo stop) C.size H (construct env name values w)
      (fun v => C.GivesObject σ s R (ip + (Code.object values.length (Int64.ofNat C.size + Int64.ofInt k)).length)
        (values, v))
      ⟨ip, words.reverse ++ s, σ.heap, R, w.output⟩ := by
  obtain ⟨c, outer, blk, T, hfind, hl, hclass, b, hb, hcell⟩ := hclass
  unfold construct
  rw [hfind]
  dsimp only
  split
  · rename_i hlength
    have hwords : values.length = words.reverse.length := by rw [hvalues.length_eq, List.length_reverse]
    rw [hwords] at hp ⊢
    intro _
    refine will_object hp.1 hb (hcell.grow hr.globals (List.prefix_refl _)) hr.hp
      (fun ip => .inl ⟨⟨ip, rfl⟩, List.prefix_refl _⟩) fun R' hroom hhp hfp => will_done ?_
    have hglobals := hr.globals.length_le
    have hnot : ¬C.Crowded σ := by
      rw [List.length_append] at hroom
      unfold Crowded
      omega
    have hsound := hr.sound.add (o := ⟨c, values, .cls c outer⟩) hlength hvalues (hclass hnot) hl
    have hlast : (σ.add ⟨c, values, .cls c outer⟩ words.reverse T).objects[σ.values.length]? =
        some (⟨c, values, .cls c outer⟩, (σ.heap ++ words.reverse).length) := by
      rw [Store.add, Store.values, List.length_map, List.getElem?_append_right (Nat.le_refl _), Nat.sub_self]
      rfl
    refine ⟨_, R', _, _, _, ⟨σ.grows_add _ _ T, rfl, hsound, hfp, ?_⟩, ?_, rfl, hr.objects ▸ hlast, rfl, rfl⟩
    · simp [hhp, Store.add, Nat.add_assoc]
    · simp [Store.values, Store.add, hr.objects]
  · exact follows_illFormed

/-- **Arguments become fields:** what they are evaluated to are the values of the fields of the new object. -/
theorem follows_new {name : Symbol} {args : List ExprRef} {codes : List Code} {r : Resolution} (ih : W.Simulates n)
    (hs : C.program.Site Γ e) (hx : C.program.arena.expr? e = some (.new name args))
    (hget : (C.program.bind C.names).resolutions.get? e = some r)
    (hcodes : List.Forall₂ (C.Coded Γ.inClass) args codes)
    (hcode : code = codes.flatten ++ Code.object args.length (Int64.ofNat C.size + Int64.ofInt r.entry.offset))
    (hp : (W.upTo stop).Embedded ip code) (hr : C.Ready env Γ σ s R w)
    (ht : W.Told (n + 1) env σ s (R .fp) w (.expr e)) :
    Follows (W.upTo stop) C.size (C.Enough (n + 1) e s)
      ((args.mapM (expr C.program.arena n env) >>= fun values => construct env name values >>= fun v => pure (values, v)) w)
      (C.GivesObject σ s R (ip + code.length)) ⟨ip, s, σ.heap, R, w.output⟩ := by
  obtain ⟨g, entry, hlast, hmeaning, hkind, hget'⟩ := C.faultless.new hs hx
  obtain rfl := Option.some.inj (hget.symm.trans hget')
  subst hcode
  obtain ⟨hargs, hobject⟩ := View.embedded_append.1 hp
  refine follows_bind (fun values => prints_bind (prints_construct _ _ _) fun v => prints_pure _)
    (follows_args ih hs hx ⟨[], (by simp [Expr.operands] : _ = [] ++ args ++ [])⟩ ht rfl hr.keeps (List.suffix_refl s) rfl hcodes hargs
      hr) ?_
  rintro values w₁ c₁ hrun ⟨σ₁, R₁, words, hk, hw, hvalues, rfl⟩
  have hr₁ := hr.after hk (List.suffix_refl s) hw
  obtain ⟨a, -, hl⟩ := hr₁.located
  have hclass := hl.find_class hkind (C.faultless.clean hs).distinct hlast hmeaning
  rw [← length_mapM hrun] at hobject ⊢
  refine follows_bind (fun v => prints_pure _) (follows_construct hobject hr₁ hclass hvalues) ?_
  rintro v w₂ c₂ - ⟨σ₂, R₂, id, o, b, hk', hrest⟩
  rw [List.length_append, ← Nat.add_assoc]
  exact follows_pure ⟨σ₂, R₂, id, o, b, hk.trans hk', hrest⟩

/-- An object is made of the values of the arguments. -/
theorem followed_new {name : Symbol} {args : List ExprRef} {codes : List Code} {r : Resolution} (ih : W.Simulates n)
    (hs : C.program.Site Γ e) (hx : C.program.arena.expr? e = some (.new name args))
    (hget : (C.program.bind C.names).resolutions.get? e = some r)
    (hcodes : List.Forall₂ (C.Coded Γ.inClass) args codes)
    (hcode : code = codes.flatten ++ Code.object args.length (Int64.ofNat C.size + Int64.ofInt r.entry.offset))
    (hp : (W.upTo stop).Embedded ip code) (hr : C.Ready env Γ σ s R w)
    (ht : W.Told (n + 1) env σ s (R .fp) w (.expr e)) : W.Followed stop (n + 1) env e code ip σ s R w := by
  have hseq : (args.mapM (expr C.program.arena n env) >>= fun values => construct env name values) =
      (args.mapM (expr C.program.arena n env) >>= fun values => construct env name values >>= fun v => pure (values, v)) >>=
        fun q => pure q.2 := by
    simp only [bind_assoc, pure_bind, bind_pure]
  unfold Watch.Followed
  rw [expr, hx]
  dsimp only
  rw [hseq]
  refine follows_bind (fun q => prints_pure _) (follows_new ih hs hx hget hcodes hcode hp hr ht) ?_
  rintro ⟨values, v⟩ w₁ c₁ - ⟨σ₁, R₁, id, o, a, hk, hw, rfl, ho, -, rfl⟩
  exact follows_pure ⟨σ₁, R₁, _, hk, hw, .object ho, rfl⟩

end Setting

end Reference

end Fool
