import Fool.Codegen.State
import Fool.Proofs.Machine.Will

/-!
# What pieces of code do

Rules for the pieces from which code is put together, in the manner of those for single instructions. Those that need to
know nothing of memory hold of all statements that are shown backwards: `Backward.duplicate`, `Backward.truth`,
`Backward.pushToHeap` and `Backward.fields`. Enlarging the heap (`Backward.bump`) is the one place at which the stack can
reach into the heap without a fault: where exactly one cell is free, the cell that has just been written is overwritten
with 1. The others are rules for `Will`: `will_loadAt`, and `will_hops` for the way along access links.
-/

namespace Fool

namespace Image

variable {image : Image} {ip : Nat} {i : Instruction} {left right code : Code}

/-- The code stands in the image from an address on. -/
def Placed (image : Image) : Nat → Code → Prop
  | _, [] => True
  | ip, i :: code => image.get? ip = some i ∧ Placed image (ip + 1) code

theorem placed_append : image.Placed ip (left ++ right) ↔
    image.Placed ip left ∧ image.Placed (ip + left.length) right := by
  induction left generalizing ip with
  | nil => simp [Placed]
  | cons i left ih =>
    rw [List.cons_append, Placed, Placed, ih, List.length_cons, and_assoc, Nat.add_assoc, Nat.add_comm 1]

/-- The code stands in the image, and something stands behind it. -/
def Embedded (image : Image) (ip : Nat) (code : Code) : Prop := image.Placed ip code ∧ ip + code.length < image.size

/-- A part of the code of the image stands behind what comes before it. -/
theorem placed_of_eq {before after : Code} (h : image.code.toList = before ++ code ++ after) :
    image.Placed before.length code := by
  induction code generalizing before with
  | nil => trivial
  | cons i code ih =>
    refine ⟨?_, ?_⟩
    · rw [get?, ← Array.getElem?_toList, h, List.append_assoc, List.getElem?_append_right (Nat.le_refl _), Nat.sub_self]
      rfl
    · have hrest : image.code.toList = (before ++ [i]) ++ code ++ after := by
        rw [h]
        simp
      have := ih hrest
      rwa [List.length_append, List.length_singleton] at this

/-- Code that ends in front of an address stands in the part of the image up to there. -/
theorem Placed.upTo {stop : Nat} (h : image.Placed ip code) (hstop : ip + code.length ≤ stop) :
    (image.upTo stop).Placed ip code := by
  induction code generalizing ip with
  | nil => trivial
  | cons i code ih =>
    rw [List.length_cons] at hstop
    exact ⟨(get?_upTo_of_lt (by omega)).trans h.1, ih h.2 (by omega)⟩

/-- A label stands for the place at which it is defined, and every place of the code is an address. -/
structure Linked (image : Image) : Prop where
  size : image.size ≤ Address.bound
  labels : ∀ {i : Nat} {l : String}, image.get? i = some (.label l) → image.addressOf? l = some i

theorem lt_size_of_get? (h : image.get? ip = some i) : ip < image.size := (Array.getElem?_eq_some_iff.1 h).1

/-- Code that stands in the image stands in all of it. -/
theorem Placed.inside (h : image.Placed ip code) : (image.upTo image.size).Placed ip code := by
  induction code generalizing ip with
  | nil => trivial
  | cons i code ih => exact ⟨(get?_upTo_of_lt (lt_size_of_get? h.1)).trans h.1, ih h.2⟩

end Image

namespace View

variable {view : View} {image : Image} {ip stop : Nat} {i : Instruction} {left right code : Code}

/-- The code stands in the part that is shown, and something stands behind it in the whole. -/
def Embedded (view : View) (ip : Nat) (code : Code) : Prop := view.Placed ip code ∧ ip + code.length < view.whole.size

/-- Code in front of an instruction. -/
theorem embedded_front (h : view.Placed ip (left ++ i :: right)) : view.Embedded ip left := by
  rw [Image.placed_append] at h
  exact ⟨h.1, Image.lt_size_of_get? (view.whole_of_get? h.2.1)⟩

/-- Parts of code that has something behind it. -/
theorem embedded_append : view.Embedded ip (left ++ right) ↔
    view.Embedded ip left ∧ view.Embedded (ip + left.length) right := by
  unfold Embedded
  rw [Image.placed_append, List.length_append, ← Nat.add_assoc]
  constructor
  · exact fun ⟨⟨hl, hr⟩, hlt⟩ => ⟨⟨hl, by omega⟩, hr, hlt⟩
  · exact fun ⟨⟨hl, _⟩, hr, hlt⟩ => ⟨⟨hl, hr⟩, hlt⟩

/-- What is shown stands in the whole. -/
theorem placed_whole (h : view.Placed ip code) : view.whole.Placed ip code := by
  induction code generalizing ip with
  | nil => trivial
  | cons i code ih => exact ⟨view.whole_of_get? h.1, ih h.2⟩

end View

namespace Image

variable {image : Image} {ip stop : Nat} {i : Instruction} {left right code : Code}

/-- Code in front of an instruction. -/
theorem Placed.front (h : image.Placed ip (left ++ i :: right)) : image.Embedded ip left :=
  (View.all image).embedded_front h

/-- Parts of code that has something behind it. -/
theorem embedded_append : image.Embedded ip (left ++ right) ↔
    image.Embedded ip left ∧ image.Embedded (ip + left.length) right := (View.all image).embedded_append

/-- Code that has something behind it stands in each part that it does not exceed. -/
theorem Embedded.upTo (h : image.Embedded ip code) (hstop : ip + code.length ≤ stop) :
    (View.upTo image stop).Embedded ip code := ⟨h.1.upTo hstop, h.2⟩

end Image

/-! ## Pieces that are shown backwards -/

namespace Code

/-- The code that writes the address of a table, which lies at a place of the stack. -/
def describe (place : Int64) : Code := [.push place, .loadWord, .load .hp, .storeWord, .load .hp] ++ bumpHeap

/-- The code that makes an object of the topmost values. -/
def object (fields : Nat) (place : Int64) : Code := (List.replicate fields pushToHeap).flatten ++ describe place

end Code

/-- Enlarging the heap moves `hp`. -/
theorem raises_of_bump {image : Image} {ip : Nat} (hp : image.Placed ip Code.bumpHeap) : Machine.Raises image ip := by
  obtain ⟨h0, h1, h2, h3, -⟩ := hp
  refine ⟨3, h3, fun j hj => ?_⟩
  match j with
  | 0 => exact ⟨_, by simp, h0⟩
  | 1 => exact ⟨_, by simp, h1⟩
  | 2 => exact ⟨_, by simp, h2⟩

/-- So it does if `hp` is loaded before. -/
theorem raises_of_load {image : Image} {ip : Nat} (hi : image.get? ip = some (.load .hp))
    (h : Machine.Raises image (ip + 1)) : Machine.Raises image ip := by
  obtain ⟨n, hstore, hbefore⟩ := h
  refine ⟨n + 1, by rwa [Nat.add_comm n, ← Nat.add_assoc], fun j hj => ?_⟩
  cases j with
  | zero => exact ⟨_, by simp, hi⟩
  | succ j =>
    rw [Nat.add_comm j, ← Nat.add_assoc]
    exact hbefore j (Nat.lt_of_succ_lt_succ hj)

namespace Backward

variable {image : View} {M : Nat} {E : MachineError → List Int64 → Prop} {W : Config → Prop} {ip : Nat}
variable {v left right : Int64} {s H out words : List Int64} {R : Register → Int64} {onTrue done : String}

theorem duplicate (hW : Backward image M E W) (hp : image.Placed ip Code.duplicate) (hhp : R .hp = Int64.ofNat H.length)
    (he : M ≤ s.length + H.length + 1 → ∀ ip, E (.stackOverflow ip) out)
    (h : W ⟨ip + 3, v :: v :: s, H, Function.update R .tm v, out⟩) : W ⟨ip, v :: s, H, R, out⟩ := by
  obtain ⟨h0, h1, h2, -⟩ := hp
  refine hW.store h0 (by decide) ?_
  refine hW.push h1 rfl hhp (fun hfull => he (by omega) _) fun _ => ?_
  exact hW.push h2 rfl hhp (fun hfull => he (by rw [List.length_cons] at hfull; omega) _) fun _ => h

/-- A comparison whose result is left on the stack, where its operands were. -/
theorem truth (hW : Backward image M E W)
    (hlabels : ∀ {i : Nat} {l : String}, image.get? i = some (.label l) → image.addressOf? l = some i)
    {on : Comparison} (hp : image.Placed ip (.branch on onTrue :: Code.truth onTrue done))
    (hhp : R .hp = Int64.ofNat H.length)
    (h : W ⟨ip + 6, (if on.holds left right then 1 else 0) :: s, H, R, out⟩) : W ⟨ip, right :: left :: s, H, R, out⟩ := by
  obtain ⟨h0, h1, h2, h3, h4, h5, -⟩ := hp
  refine hW.used fun hused => hW.branch h0 (hlabels h3) (by omega) ?_
  simp only [Config.used, List.length_cons] at hused
  by_cases hon : on.holds left right
  · rw [if_pos hon] at h ⊢
    refine hW.label h3 ?_
    refine hW.push_low h4 rfl (low_of_eq hhp) (by omega) ?_
    exact hW.label h5 h
  · rw [if_neg hon] at h ⊢
    refine hW.push_low h1 rfl (low_of_eq hhp) (by omega) ?_
    refine hW.jump h2 (hlabels h5) (by omega) ?_
    exact hW.label h5 h

/-- **The heap is enlarged by the cell that has just been written.** If exactly one cell is free behind it, it holds 1
then; if none is, the heap is not enlarged. -/
theorem bump (hW : Backward image M E W) (hp : image.Placed ip Code.bumpHeap) (hhp : R .hp = Int64.ofNat H.length)
    (he : ∀ ip, E (.stackOverflow ip) out)
    (h : ∀ x, x = v ∨ x = 1 ∧ s.length + H.length + 2 = M → s.length + H.length + 2 ≤ M →
      W ⟨ip + 4, s, H ++ [x], Function.update R .hp (Int64.ofNat (H.length + 1)), out⟩) :
    W ⟨ip, s, H ++ [v], R, out⟩ := by
  obtain ⟨h0, h1, h2, h3, -⟩ := hp
  have hlow : ∀ x, Low R (H ++ [x]) := fun x => ⟨H.length, by simp, hhp⟩
  have hsum : Arith.add.result? (R .hp) 1 = some (Int64.ofNat (H.length + 1)) := by
    unfold Arith.result?
    rw [hhp, Int64.ofNat_add]
    rfl
  refine hW.used fun hused => ?_
  simp only [Config.used, List.length_append, List.length_singleton] at hused
  by_cases hfull : s.length + H.length + 1 = M
  · -- the copy of `hp` takes the place of the cell, and the next push is refused
    refine hW.push_over h0 rfl hhp (by omega) ?_
    refine hW.push h1 rfl hhp (fun _ => he _) fun hroom => ?_
    rw [List.length_cons] at hroom
    omega
  · refine hW.push_low h0 rfl (hlow v) (by rw [List.length_append, List.length_singleton]; omega) ?_
    by_cases hone : s.length + H.length + 2 = M
    · -- the 1 takes the place of the cell
      refine hW.push_over h1 rfl hhp (by rw [List.length_cons]; omega) ?_
      refine hW.ahead h2 rfl (by simp) (Nat.lt_succ_self _) (does_get fun m hm => ?_)
        (hW.raise h3 hhp (h 1 (Or.inr ⟨rfl, hone⟩) (Nat.le_of_eq hone)))
      rw [hm.ip]
      refine does_bind (does_pop_full (by rw [List.length_cons]; omega)) (does_bind does_pop ?_)
      rw [hsum]
      refine does_bind (does_push _ hhp (by simp) ?_) (does_pure _)
      rw [List.length_append, List.length_singleton]
      omega
    · refine hW.push_low h1 rfl (hlow v) ?_ ?_
      · rw [List.length_cons, List.length_append, List.length_singleton]
        omega
      · refine hW.arith h2 hsum (hlow v) ?_
        exact hW.raise h3 hhp (h v (Or.inl rfl) (by omega))

/-- The topmost value becomes the last of the heap, unless memory is almost full. -/
theorem pushToHeap (hW : Backward image M E W) (hp : image.Placed ip Code.pushToHeap)
    (hhp : R .hp = Int64.ofNat H.length) (he : ∀ ip, E (.stackOverflow ip) out)
    (h : ∀ x, x = v ∨ s.length + H.length + 2 = M →
      W ⟨ip + 6, s, H ++ [x], Function.update R .hp (Int64.ofNat (H.length + 1)), out⟩) : W ⟨ip, v :: s, H, R, out⟩ := by
  obtain ⟨h0, h1, hbump⟩ := hp
  refine hW.push h0 rfl hhp (fun _ => he _) fun _ => ?_
  rw [hhp]
  refine hW.write h1 (raises_of_bump hbump) hhp ?_
  exact hW.bump hbump hhp he fun x hx _ => h x (hx.imp_right And.right)

/-- Values are moved from the stack to the heap, unless memory is almost full. -/
theorem fields (hW : Backward image M E W) (hp : image.Placed ip (List.replicate words.length Code.pushToHeap).flatten)
    (hhp : R .hp = Int64.ofNat H.length) (he : ∀ ip, E (.stackOverflow ip) out)
    (h : ∀ xs R', xs.length = words.length → xs = words ∨ M ≤ s.length + (H ++ xs).length + 1 →
      R' .hp = Int64.ofNat (H ++ xs).length → (∀ r, r ≠ .hp → R' r = R r) →
      W ⟨ip + (List.replicate words.length Code.pushToHeap).flatten.length, s, H ++ xs, R', out⟩) :
    W ⟨ip, words ++ s, H, R, out⟩ := by
  induction words generalizing ip H R with
  | nil => simpa using h [] R rfl (.inl rfl) (by simpa using hhp) fun _ _ => rfl
  | cons word words ih =>
    rw [List.length_cons, List.replicate_succ, List.flatten_cons] at hp
    obtain ⟨hpush, hp⟩ := Image.placed_append.1 hp
    refine hW.pushToHeap hpush hhp he fun x hx => ?_
    refine ih hp ?_ fun xs R' hlen hxs hhp' hR' => ?_
    · rw [Function.update_self, List.length_append, List.length_singleton]
    · have hgoal := h (x :: xs) R' (congrArg (· + 1) hlen)
      have hlength : ip + (List.replicate (word :: words).length Code.pushToHeap).flatten.length =
          ip + 6 + (List.replicate words.length Code.pushToHeap).flatten.length := by
        rw [List.length_cons, List.replicate_succ, List.flatten_cons, List.length_append, ← Nat.add_assoc]
        rfl
      rw [List.append_cons, hlength] at hgoal
      refine hgoal ?_ hhp' fun r hr => (hR' r hr).trans (Function.update_of_ne hr _ _)
      simp only [List.append_eq, List.length_append, List.length_singleton] at hxs hx ⊢
      rcases hxs with rfl | hfull
      · exact hx.imp (congrArg (· :: xs)) fun hx => by omega
      · exact .inr hfull

end Backward

/-! ## Pieces of code that is run -/

section Pieces

variable {V : Course} {M : Nat} {Q : Config → Prop} {E : MachineError → List Int64 → Prop} {ip a b n : Nat}
variable {v w left right : Int64} {s H out : List Int64} {R : Register → Int64} {l onTrue done : String}

theorem will_duplicate (hp : V.Placed ip Code.duplicate) (hhp : R .hp = Int64.ofNat H.length)
    (he : M ≤ s.length + H.length + 1 → ∀ ip, E (.stackOverflow ip) out)
    (h : Will V M Q E ⟨ip + 3, v :: v :: s, H, Function.update R .tm v, out⟩) :
    Will V M Q E ⟨ip, v :: s, H, R, out⟩ :=
  backward_will.duplicate hp hhp he h

/-- The value at an offset from an address. -/
theorem will_loadAt {k : Int} (hp : V.Placed ip (Code.loadAt k)) (hb : (b : Int) = a + k)
    (hw : Cell M s H b w) (hhp : R .hp = Int64.ofNat H.length)
    (he : ∀ ip, E (.stackOverflow ip) out) (h : Will V M Q E ⟨ip + 3, w :: s, H, R, out⟩) :
    Will V M Q E ⟨ip, Int64.ofNat a :: s, H, R, out⟩ := by
  obtain ⟨h0, h1, h2, -⟩ := hp
  refine will_push h0 rfl hhp he fun _ => ?_
  have hsum : Arith.add.result? (Int64.ofNat a) (Int64.ofInt k) = some (Int64.ofNat b) := by
    unfold Arith.result?
    rw [Address.ofNat_add_ofInt hb]
  refine will_arith h1 hsum (low_of_eq hhp) ?_
  exact will_loadWord h2 hw (low_of_eq hhp) h

/-- A comparison whose result is left on the stack, where its operands were. -/
theorem will_truth (hlabels : ∀ {i : Nat} {l : String}, V.get? i = some (.label l) → V.addressOf? l = some i)
    {on : Comparison} (hp : V.Placed ip (.branch on onTrue :: Code.truth onTrue done))
    (hhp : R .hp = Int64.ofNat H.length)
    (h : Will V M Q E ⟨ip + 6, (if on.holds left right then 1 else 0) :: s, H, R, out⟩) :
    Will V M Q E ⟨ip, right :: left :: s, H, R, out⟩ :=
  backward_will.truth hlabels hp hhp h

/-- Values are taken off the stack. -/
theorem will_pops {xs : List Int64} (hp : V.Placed ip (List.replicate xs.length .pop))
    (h : Will V M Q E ⟨ip + xs.length, s, H, R, out⟩) : Will V M Q E ⟨ip, xs ++ s, H, R, out⟩ := by
  induction xs generalizing ip with
  | nil => exact h
  | cons x xs ih =>
    obtain ⟨h0, hrest⟩ := hp
    refine will_pop h0 (ih hrest ?_)
    rwa [Nat.add_assoc, Nat.add_comm 1]

/-- The end of a function, which takes everything but the value off the stack. -/
def Code.leave (locals params : Nat) : Code :=
  .store .tm :: (List.replicate locals .pop ++ .store .ra :: .pop :: (List.replicate params .pop ++
    [.store .fp, .load .tm, .load .ra, .jumpSub]))

/-- **A function is left:** the caller goes on with the value, and with its own frame. -/
theorem will_leave {xs words : List Int64} {link fp : Int64} {ret : Nat}
    (hp : V.Placed ip (Code.leave xs.length words.length)) (hhp : R .hp = Int64.ofNat H.length)
    (he : ∀ ip, E (.stackOverflow ip) out) (h : ∀ R', R' .fp = fp → R' .hp = R .hp → Q ⟨ret, v :: s, H, R', out⟩) :
    Will V M (Config.Exits V.whole ret Q) E ⟨ip, v :: (xs ++ Int64.ofNat ret :: link :: (words ++ fp :: s)), H, R, out⟩ := by
  obtain ⟨htm, hp⟩ := hp
  obtain ⟨hlocals, hra, hlink, hp⟩ := Image.placed_append.1 hp
  obtain ⟨hparams, hfp, hloadtm, hloadra, hjump, -⟩ := Image.placed_append.1 hp
  rw [List.length_replicate] at hra hlink hparams hfp hloadtm hloadra hjump
  rw [List.length_replicate] at hfp hloadtm hloadra hjump
  refine will_store htm (by decide) (will_pops hlocals (will_store hra (by decide) (will_pop hlink (will_pops hparams
    (will_store hfp (by decide) ?_)))))
  refine will_push hloadtm rfl (by simpa using hhp) he fun _ => ?_
  refine will_push hloadra rfl (by simpa using hhp) he fun _ => ?_
  simp only [ne_eq, reduceCtorEq, not_false_eq_true, Function.update_of_ne, Function.update_self]
  refine will_done ⟨_, _, _, _, _, V.whole_of_get? hloadra, V.whole_of_get? hjump, rfl, h _ (by simp) (by simp)⟩

/-! ## Access links -/

/-- So many links lead from the one address to the other. -/
def Path (M : Nat) (s H : List Int64) : Nat → Nat → Nat → Prop
  | 0, a, b => a = b
  | n + 1, a, b => ∃ a', Cell M s H a (Int64.ofNat a') ∧ Path M s H n a' b

theorem Path.grow {s' H' : List Int64} (h : Path M s H n a b) (hs : s <:+ s') (hH : H <+: H') : Path M s' H' n a b := by
  induction n generalizing a with
  | zero => exact h
  | succ n ih =>
    obtain ⟨a', ha, hrest⟩ := h
    exact ⟨a', ha.grow hs hH, ih hrest⟩

theorem will_hops (hp : V.Placed ip (List.replicate n .loadWord)) (hpath : Path M s H n a b)
    (hlow : Low R H) (h : Will V M Q E ⟨ip + n, Int64.ofNat b :: s, H, R, out⟩) :
    Will V M Q E ⟨ip, Int64.ofNat a :: s, H, R, out⟩ := by
  induction n generalizing ip a with
  | zero =>
    obtain rfl : a = b := hpath
    exact h
  | succ n ih =>
    obtain ⟨h0, hrest⟩ := hp
    obtain ⟨a', ha, hpath⟩ := hpath
    refine will_loadWord h0 ha hlow ?_
    refine ih hrest hpath ?_
    rwa [Nat.add_assoc, Nat.add_comm 1]

/-! ## The heap -/

/-- **The heap is enlarged by the cell that has just been written.** If exactly one cell is free, it holds 1 then. -/
theorem will_bump (hp : V.Placed ip Code.bumpHeap) (hhp : R .hp = Int64.ofNat H.length)
    (he : ∀ ip, E (.stackOverflow ip) out)
    (h : ∀ x, x = v ∨ x = 1 ∧ s.length + H.length + 2 = M →
      Will V M Q E ⟨ip + 4, s, H ++ [x], Function.update R .hp (Int64.ofNat (H.length + 1)), out⟩) :
    Will V M Q E ⟨ip, s, H ++ [v], R, out⟩ :=
  backward_will.bump hp hhp he fun x hx _ => h x hx

/-- The topmost value becomes the last of the heap, unless memory is almost full. -/
theorem will_pushToHeap (hp : V.Placed ip Code.pushToHeap) (hhp : R .hp = Int64.ofNat H.length)
    (he : ∀ ip, E (.stackOverflow ip) out)
    (h : ∀ x, x = v ∨ s.length + H.length + 2 = M →
      Will V M Q E ⟨ip + 6, s, H ++ [x], Function.update R .hp (Int64.ofNat (H.length + 1)), out⟩) :
    Will V M Q E ⟨ip, v :: s, H, R, out⟩ :=
  backward_will.pushToHeap hp hhp he h

/-- **The table of an object is overwritten:** the run comes to a collision. -/
theorem will_collide (hp : V.Placed ip [.storeWord, .load .hp, .load .hp, .push 1])
    (hhp : R .hp = Int64.ofNat H.length) (hone : s.length + H.length + 1 = M) (hv : v ≠ 1) :
    Will V M Q E ⟨ip + 3, s, H ++ [v], R, out⟩ := by
  obtain ⟨h0, h1, h2, h3, -⟩ := hp
  intro m _ hm
  have hcell := hm.cell_heap (a := H.length) (by simp)
  have hsp := hm.sp
  have hin := V.lt_stop h3
  replace h0 := V.whole_of_get? h0
  replace h1 := V.whole_of_get? h1
  replace h2 := V.whole_of_get? h2
  replace h3 := V.whole_of_get? h3
  rw [← hm.image] at h0 h1 h2 h3
  refine .collide .refl (fun _ => hm.ip ▸ hin) ⟨ip, H.length, hm.ip, h0, h1, h2, h3, (hm.registers .hp).trans hhp, ?_, ?_⟩
  · dsimp only at hsp
    omega
  · rw [hcell]
    simpa using hv

end Pieces

end Fool
