import Fool.Proofs.Codegen.Walks
import Fool.Proofs.Machine.Load

/-!
# What expressions without calls do to stack and heap

The code of an expression without calls takes a way through its stretch and leaves one value on the stack, whatever lies
in memory (`Occupies.evaluates`).
-/

namespace Fool

open Generator Machine

section Pieces

variable {image : View} {M lo mid hi ip t b n : Nat} {ns ns' : List Allocation} {c c' : Config} {P : Config → Prop}
variable {v w : Int64} {s s' s₁ s₂ H out out' words : List Int64} {R R' : Register → Int64} {l : String}

/-! ## A value is left on the stack -/

/-- The run stands at the address, with a value on top of the stack. -/
def Config.Tops (ip : Nat) (s : List Int64) (c : Config) : Prop := ∃ v H R out, c = ⟨ip, v :: s, H, R, out⟩

/-- There the heap and the registers are as they were, `tm` apart. -/
def Config.Puts (ip : Nat) (s H : List Int64) (R : Register → Int64) (c : Config) : Prop :=
  ∃ v R' out, c = ⟨ip, v :: s, H, R', out⟩ ∧ ∀ r, r ≠ .tm → R' r = R r

/-- **Every run takes a way through the stretch,** on which the objects are made, and leaves a value on the stack. -/
def Evaluates (image : View) (M lo hi : Nat) (ns : List Allocation) (s : List Int64) (c : Config) : Prop :=
  Walks image M lo hi ns 0 (fun _ => Config.Tops hi s) c

theorem grows_of_eq (hhp : R .hp = Int64.ofNat H.length) (hR : ∀ r, r ≠ .tm → R' r = R r) :
    Config.Grows ⟨ip, s, H, R, out⟩ 0 ⟨t, s', H, R', out'⟩ where
  fp := hR .fp (by decide)
  ra := hR .ra (by decide)
  hp := (hR .hp (by decide)).trans hhp
  heap := List.prefix_refl H
  length := rfl

theorem Evaluates.bind (h : Evaluates image M lo mid ns s c) (h' : ∀ v H R out, R .hp = Int64.ofNat H.length →
      Evaluates image M mid hi ns' s' ⟨mid, v :: s, H, R, out⟩) : Evaluates image M lo hi (ns ++ ns') s' c := by
  refine Walks.bind h fun cs c' hhp hc => ?_
  obtain ⟨v, H, R, out, rfl⟩ := hc
  exact h' v H R out hhp

/-- An instruction, and behind it code in which objects are made. -/
theorem evaluates_of_does {i : Instruction} (hi' : image.get? ip = some i)
    (h : Does image.whole M (Machine.execute i) ⟨ip, s₁, H, R, out⟩ (some t) ⟨ip, s₂, H, R, out⟩) (hlt : ip < lo)
    (hhp : R .hp = Int64.ofNat H.length) (hrest : Evaluates image M lo hi ns s ⟨t, s₂, H, R, out⟩) :
    Evaluates image M ip hi ns s ⟨ip, s₁, H, R, out⟩ := by
  refine goes_of_does hi' hlt h (Goes.mono hrest fun cs c' ⟨hwalk, hc⟩ => ⟨?_, hc⟩)
  have hone : Walk ip lo [] 0 ⟨ip, s₁, H, R, out⟩ [⟨ip, s₁, H, R, out⟩] ⟨t, s₂, H, R, out⟩ :=
    ⟨Config.Ahead.single (c := ⟨ip, s₁, H, R, out⟩) hlt, grows_of_eq hhp fun _ _ => rfl, nofun, nofun⟩
  exact hone.trans hwalk

/-- Straight code behind code to which the run does not come. -/
theorem evaluates_of_leads (hlo : lo ≤ ip) (hns : Allocation.Between lo ip ns) (hhp : R .hp = Int64.ofNat H.length)
    (h : Leads image M hi (Config.Puts hi s H R) ⟨ip, s', H, R, out⟩) :
    Evaluates image M lo hi ns s ⟨ip, s', H, R, out⟩ := by
  have hwalks : Evaluates image M ip hi [] s ⟨ip, s', H, R, out⟩ := by
    refine (h.walks fun c' hc => ?_).mono fun _ c' _ hc => ?_
    · obtain ⟨v, R', out', rfl, hR'⟩ := hc
      exact grows_of_eq hhp hR'
    · obtain ⟨v, R', out', rfl, -⟩ := hc
      exact ⟨v, H, R', out', rfl⟩
  have hskip := Walks.skip hwalks hlo hns
  rwa [List.append_nil] at hskip

/-- Straight code behind code in which objects are made. -/
theorem Evaluates.leads (h : Evaluates image M lo mid ns s c) (h' : ∀ v H R out, R .hp = Int64.ofNat H.length →
      Leads image M hi (Config.Puts hi s' H R) ⟨mid, v :: s, H, R, out⟩) : Evaluates image M lo hi ns s' c := by
  have hnone : Allocation.Between mid mid [] := nofun
  have hbind := h.bind fun v H R out hhp => evaluates_of_leads (Nat.le_refl mid) hnone hhp (h' v H R out hhp)
  rwa [List.append_nil] at hbind

/-! ## Pieces of code -/

theorem leads_done_puts : Leads image M ip (Config.Puts ip s H R) ⟨ip, v :: s, H, R, out⟩ :=
  leads_done (Nat.le_refl ip) ⟨v, R, out, rfl, fun _ _ => rfl⟩

theorem leads_push {i : Instruction} (hi' : image.get? ip = some i) (hv : i.pushed? image.toImage R = some v)
    (hhp : R .hp = Int64.ofNat H.length)
    (h : s.length + H.length < M → Leads image M hi P ⟨ip + 1, v :: s, H, R, out⟩) :
    Leads image M hi P ⟨ip, s, H, R, out⟩ := backward_leads.push hi' hv hhp (fun _ => trivial) h

/-- The word at an offset from what is on the stack, whatever that is. -/
theorem leads_loadAt {k : Int} (hp : image.Placed ip (Code.loadAt k)) (hhp : R .hp = Int64.ofNat H.length)
    (h : ∀ w, Leads image M hi P ⟨ip + 3, w :: s, H, R, out⟩) : Leads image M hi P ⟨ip, v :: s, H, R, out⟩ := by
  obtain ⟨hpush, hadd, hload, -⟩ := hp
  refine leads_push hpush rfl hhp fun _ => ?_
  refine backward_leads.arith hadd rfl (low_of_eq hhp) ?_
  exact leads_loadWord hload (low_of_eq hhp) h

theorem leads_hops (hp : image.Placed ip (List.replicate n .loadWord)) (hlow : Low R H)
    (h : ∀ w, Leads image M hi P ⟨ip + n, w :: s, H, R, out⟩) : Leads image M hi P ⟨ip, v :: s, H, R, out⟩ := by
  induction n generalizing ip v with
  | zero => exact h v
  | succ n ih =>
    obtain ⟨hload, hrest⟩ := hp
    refine leads_loadWord hload hlow fun w => ih hrest fun w => ?_
    rw [Nat.add_assoc, Nat.add_comm 1]
    exact h w

theorem leads_frameOf {frameBase : Int64} {inClass : Bool} {r : Resolution}
    (hp : image.Placed ip (frameOf frameBase inClass r)) (hhp : R .hp = Int64.ofNat H.length)
    (h : ∀ w, Leads image M hi P ⟨ip + (frameOf frameBase inClass r).length, w :: s, H, R, out⟩) :
    Leads image M hi P ⟨ip, s, H, R, out⟩ := by
  unfold frameOf at hp h
  split at hp
  · rename_i hglobal
    rw [if_pos hglobal] at h
    exact leads_push hp.1 rfl hhp fun _ => h _
  · rename_i hglobal
    rw [if_neg hglobal] at h
    obtain ⟨hload, hhops⟩ := hp
    refine leads_push hload rfl hhp fun _ => leads_hops hhops (low_of_eq hhp) fun w => ?_
    have hgoal := h w
    rwa [List.length_cons, List.length_replicate, Nat.add_comm r.hops, ← Nat.add_assoc] at hgoal

/-- A value is compared with a word, and the run goes on at one of two places. -/
theorem evaluates_test (hp : image.Placed ip [.push w, .branch .equal l]) (hl : image.addressOf? l = some t)
    (hhp : R .hp = Int64.ofNat H.length)
    (hyes : Evaluates image M (ip + 2) hi ns s' ⟨t, s, H, R, out⟩)
    (hno : Evaluates image M (ip + 2) hi ns s' ⟨ip + 2, s, H, R, out⟩) :
    Evaluates image M ip hi ns s' ⟨ip, v :: s, H, R, out⟩ := by
  obtain ⟨hpush, hbranch, -⟩ := hp
  by_cases hroom : (v :: s).length + H.length < M
  · refine evaluates_of_does hpush (does_execute_push rfl (low_of_eq hhp) hroom) (Nat.lt_succ_self ip) hhp ?_
    refine evaluates_of_does hbranch (does_execute_branch (View.addressOf?_eq l ▸ hl)) (Nat.lt_succ_self _) hhp ?_
    split
    · exact hyes
    · exact hno
  · exact goes_of_fails hpush (Nat.le_refl ip) (fails_execute_push rfl hhp (Nat.le_of_not_lt hroom))

/-! ## The making of an object -/

/-- A word is written behind the heap, and its address is left on the stack. The word may be lost; whatever is there then,
two more cells are free. -/
theorem leads_describe {place : Int64} (hp : image.Placed ip (Code.describe place)) (hhp : R .hp = Int64.ofNat H.length)
    (h : ∀ x, s.length + H.length + 3 ≤ M → Leads image M hi P ⟨ip + 9, Int64.ofNat H.length :: s, H ++ [x],
      Function.update R .hp (Int64.ofNat (H.length + 1)), out⟩) : Leads image M hi P ⟨ip, s, H, R, out⟩ := by
  obtain ⟨hpush, hload, hfirst, hstore, hsecond, hbump⟩ := hp
  refine leads_push hpush rfl hhp fun _ => leads_loadWord hload (low_of_eq hhp) fun w => ?_
  refine leads_push hfirst rfl hhp fun hroom => ?_
  rw [List.length_cons] at hroom
  rw [hhp]
  refine backward_leads.write hstore (raises_of_load hsecond (raises_of_bump hbump)) hhp ?_
  refine backward_leads.push_low hsecond rfl ⟨_, by simp, hhp⟩ ?_ ?_
  · rw [List.length_append, List.length_singleton]
    omega
  · rw [hhp]
    refine backward_leads.bump hbump hhp (fun _ => trivial) fun x _ hfree => h x ?_
    rw [List.length_cons] at hfree
    omega

/-- **An object is made of the topmost values.** -/
theorem leads_object {place : Int64} (hp : image.Placed ip (Code.object words.length place))
    (hhp : R .hp = Int64.ofNat H.length) (h : ∀ table R', R' .hp = Int64.ofNat (H ++ words ++ [table]).length →
      (∀ r, r ≠ .hp → R' r = R r) → Leads image M hi P ⟨ip + (Code.object words.length place).length,
        Int64.ofNat (H ++ words).length :: s, H ++ words ++ [table], R', out⟩) :
    Leads image M hi P ⟨ip, words ++ s, H, R, out⟩ := by
  obtain ⟨hfields, hp⟩ := Image.placed_append.1 hp
  refine backward_leads.fields hfields hhp (fun _ => trivial) fun xs R' hlength hxs hhp' hR' => ?_
  refine leads_describe hp hhp' fun table hroom => ?_
  -- there is room for the address of the table, so none of the fields has been lost
  obtain rfl : xs = words := hxs.resolve_right (by omega)
  have hhp'' : Function.update R' .hp (Int64.ofNat ((H ++ xs).length + 1)) .hp =
      Int64.ofNat (H ++ xs ++ [table]).length := by
    simp only [Function.update_self, List.length_append, List.length_singleton]
  have hgoal := h table _ hhp'' fun r hr => (Function.update_of_ne hr _ _).trans (hR' r hr)
  rwa [Code.object, List.length_append, ← Nat.add_assoc] at hgoal

end Pieces

/-! ## Expressions -/

section Expressions

variable {image : View} {M ip start : Nat} {a : Arena} {t : Resolutions} {frameBase : Int64} {inClass : Bool} {e : ExprRef}
variable {op : Operator} {tail : Code} {x y : Stretch} {xs : List Stretch} {v : Int64} {s H out : List Int64}
variable {R : Register → Int64}

/-- The code of the stretch takes a way through it, wherever the run comes to it. -/
def Stretch.Evaluates (image : View) (M : Nat) (x : Stretch) : Prop :=
  ∀ ⦃s H : List Int64⦄ ⦃R : Register → Int64⦄ ⦃out : List Int64⦄, R .hp = Int64.ofNat H.length →
    Fool.Evaluates image M x.start x.stop x.allocations s ⟨x.start, s, H, R, out⟩

/-- The code behind the left operand. -/
theorem evaluates_tail (hlabels : ∀ {i : Nat} {l : String}, image.get? i = some (.label l) → image.addressOf? l = some i)
    (htail : Tail op y.code tail) (hp : image.Placed ip tail) (hstart : y.start = ip + op.lead)
    (hbetween : Allocation.Between y.start y.stop y.allocations) (hy : image.Placed y.start y.code → y.Evaluates image M)
    (hhp : R .hp = Int64.ofNat H.length) :
    Evaluates image M ip (ip + tail.length) y.allocations s ⟨ip, v :: s, H, R, out⟩ := by
  have hstop : y.stop = y.start + y.code.length := rfl
  cases htail with
  | @arith _ o _ ho =>
    have hlead : op.lead = 0 := by cases op <;> first | rfl | cases ho
    obtain rfl : y.start = ip := by omega
    obtain ⟨hsecond, harith, -⟩ := Image.placed_append.1 hp
    rw [List.length_append, ← Nat.add_assoc]
    refine Evaluates.leads (hy hsecond hhp) fun w H' R' out' hhp' => ?_
    exact leads_arith harith (low_of_eq hhp') fun _ _ => leads_done_puts
  | @comparison _ on _ _ _ hon =>
    have hlead : op.lead = 0 := by cases op <;> first | rfl | cases hon
    obtain rfl : y.start = ip := by omega
    obtain ⟨hsecond, htruth⟩ := Image.placed_append.1 hp
    rw [List.length_append, ← Nat.add_assoc]
    refine Evaluates.leads (hy hsecond hhp) fun w H' R' out' hhp' => ?_
    exact backward_leads.truth hlabels htruth hhp' leads_done_puts
  | @or _ onTrue done =>
    have hlead : y.start = ip + 2 := hstart
    obtain ⟨hfront, hback⟩ := Image.placed_append.1 hp
    obtain ⟨htest, hsecond⟩ := Image.placed_append.1 hfront
    have hmid : ip + ([Instruction.push 1, .branch .equal onTrue] ++ y.code).length = y.stop := by
      rw [List.length_append, hstop, hlead, Nat.add_assoc]
      rfl
    rw [hmid] at hback
    rw [List.length_append, ← Nat.add_assoc, hmid]
    obtain ⟨hpush, htruth⟩ := hback
    obtain ⟨-, -, -, honTrue, hone, hdone, -⟩ := id htruth
    refine evaluates_test htest (hlabels honTrue) hhp ?_ ?_
    · -- the left operand is true, and the right one is not come to
      refine evaluates_of_leads (by omega) (hbetween.mono (by omega) (by omega)) hhp ?_
      refine backward_leads.label honTrue (leads_push hone rfl hhp fun _ => backward_leads.label hdone ?_)
      exact leads_done_puts
    · have hsecond' : image.Placed y.start y.code := by
        rw [hlead]
        exact hsecond
      rw [← hlead]
      refine Evaluates.leads (hy hsecond' hhp) fun w H' R' out' hhp' => leads_push hpush rfl hhp' fun _ => ?_
      exact backward_leads.truth hlabels htruth hhp' leads_done_puts

/-- The code of a conditional behind its condition: the branch that comes first in the code is that for false. -/
theorem evaluates_branches {z : Stretch} {first done : String}
    (hlabels : ∀ {i : Nat} {l : String}, image.get? i = some (.label l) → image.addressOf? l = some i)
    (hp : image.Placed ip
      ([.push 1, .branch .equal first] ++ (y.code ++ ([.jump done, .label first] ++ (z.code ++ [.label done])))))
    (hystart : y.start = ip + 2) (hzstart : z.start = y.stop + 2)
    (hybetween : Allocation.Between y.start y.stop y.allocations)
    (hzbetween : Allocation.Between z.start z.stop z.allocations)
    (hy : image.Placed y.start y.code → y.Evaluates image M) (hz : image.Placed z.start z.code → z.Evaluates image M)
    (hhp : R .hp = Int64.ofNat H.length) :
    Evaluates image M ip (z.stop + 1) (y.allocations ++ z.allocations) s ⟨ip, v :: s, H, R, out⟩ := by
  have hystop : y.stop = y.start + y.code.length := rfl
  have hzstop : z.stop = z.start + z.code.length := rfl
  obtain ⟨htest, hp⟩ := Image.placed_append.1 hp
  rw [show ip + ([.push 1, .branch .equal first] : Code).length = y.start from hystart.symm] at hp
  obtain ⟨hycode, hp⟩ := Image.placed_append.1 hp
  rw [← hystop] at hp
  obtain ⟨⟨hjump, hlabel, -⟩, hp⟩ := Image.placed_append.1 hp
  rw [show y.stop + ([.jump done, .label first] : Code).length = z.start from hzstart.symm] at hp
  obtain ⟨hzcode, hdone, -⟩ := Image.placed_append.1 hp
  rw [← hzstop] at hdone
  refine evaluates_test htest (hlabels hlabel) hhp ?_ ?_
  · -- the branch that comes first in the code is jumped over
    have hskipped : Allocation.Between (ip + 2) (y.stop + 1) y.allocations := hybetween.mono (by omega) (by omega)
    refine Walks.skip ?_ (by omega) hskipped
    refine evaluates_of_does hlabel does_execute_label (by omega : y.stop + 1 < z.start) hhp ?_
    rw [show y.stop + 1 + 1 = z.start by omega]
    exact Evaluates.leads (hz hzcode hhp) fun w H' R' out' hhp' => backward_leads.label hdone leads_done_puts
  · rw [← hystart]
    refine Evaluates.bind (hy hycode hhp) fun w H' R' out' hhp' => ?_
    refine evaluates_of_does hjump (does_execute_jump (View.addressOf?_eq done ▸ hlabels hdone)) (by omega : y.stop < z.start) hhp' ?_
    exact evaluates_of_leads (by omega) hzbetween hhp' (backward_leads.label hdone leads_done_puts)

/-- **The arguments are evaluated one after the other,** and their values are left on the stack, the last one on top. -/
theorem walks_args (hxs : ∀ x ∈ xs, x.Evaluates image M) (hadjacent : Stretch.Adjacent start xs)
    (hhp : R .hp = Int64.ofNat H.length) :
    Walks image M start (start + (xs.map Stretch.code).flatten.length) (xs.map Stretch.allocations).flatten 0
      (fun cs c' => ∃ vs H' R' out',
        c' = ⟨start + (xs.map Stretch.code).flatten.length, vs.reverse ++ s, H', R', out'⟩ ∧
        List.Forall₂ (fun x v => ∃ d ∈ cs ++ [c'], d.ip = x.stop ∧ d.stack.head? = some v) xs vs)
      ⟨start, s, H, R, out⟩ := by
  induction xs generalizing start s H R out with
  | nil =>
    refine goes_done ⟨⟨⟨Nat.le_refl _, List.mem_cons_self, .nil, nofun⟩, grows_of_eq hhp fun _ _ => rfl, nofun, nofun⟩, ?_⟩
    exact ⟨[], H, R, out, rfl, .nil⟩
  | cons x xs ih =>
    obtain ⟨rfl, hadjacent⟩ := hadjacent
    have hend : x.start + ((x :: xs).map Stretch.code).flatten.length = x.stop + (xs.map Stretch.code).flatten.length := by
      rw [List.map_cons, List.flatten_cons, List.length_append, ← Nat.add_assoc]
      rfl
    rw [hend]
    refine Walks.bind (hxs x List.mem_cons_self hhp) fun cs c' hhp' hc => ?_
    obtain ⟨v, H', R', out', rfl⟩ := hc
    refine (ih (fun y hy => hxs y (List.mem_cons_of_mem _ hy)) hadjacent hhp').mono fun cs' c'' hwalk hc => ?_
    obtain ⟨vs, H'', R'', out'', rfl, hvs⟩ := hc
    have hv := hwalk.mem_append_left (List.mem_append_right cs List.mem_cons_self)
    refine ⟨v :: vs, H'', R'', out'', by simp, .cons ⟨_, hv, rfl, rfl⟩ (hvs.imp fun y w => ?_)⟩
    rintro ⟨d, hd, hip, htop⟩
    exact ⟨d, by rw [List.append_assoc]; exact List.mem_append_right _ hd, hip, htop⟩

/-- The code of a `new` makes an object, and those that its arguments make. -/
theorem evaluates_new {mid hi : Nat} {place : Int64} (hxs : ∀ x ∈ xs, x.Evaluates image M)
    (hadjacent : Stretch.Adjacent start xs) (hmid : start + (xs.map Stretch.code).flatten.length = mid)
    (hhi : mid + (Code.object xs.length place).length = hi) (hp : image.Placed mid (Code.object xs.length place))
    (hhp : R .hp = Int64.ofNat H.length) :
    Evaluates image M start hi (⟨start, xs.map Stretch.stop, hi⟩ :: (xs.map Stretch.allocations).flatten) s
      ⟨start, s, H, R, out⟩ := by
  have hlt : start < hi := by
    simp only [Code.object, Code.describe, List.length_append, List.length_cons] at hhi
    omega
  have hargs : Walks image M start _ _ 0 _ ⟨start, s, H, R, out⟩ := walks_args hxs hadjacent hhp
  rw [hmid] at hargs
  have hwalks : Walks image M start hi ((xs.map Stretch.allocations).flatten ++ []) (xs.length + 1) (fun cs c' =>
      c'.Tops hi s ∧ Allocation.Made ⟨start, xs.map Stretch.stop, hi⟩ cs c') ⟨start, s, H, R, out⟩ := by
    refine Walks.bind hargs fun cs c' hhp' hc => ?_
    obtain ⟨vs, H', R', out', rfl, hvs⟩ := hc
    have hlength : vs.reverse.length = xs.length := by rw [List.length_reverse, hvs.length_eq]
    rw [← hlength] at hp hhi ⊢
    have hleads : Leads image M hi (fun c'' => ∃ table R'', c'' = ⟨hi, Int64.ofNat (H' ++ vs.reverse).length :: s,
        H' ++ vs.reverse ++ [table], R'', out'⟩ ∧ R'' .hp = Int64.ofNat (H' ++ vs.reverse ++ [table]).length ∧
        ∀ r, r ≠ .hp → R'' r = R' r) ⟨mid, vs.reverse ++ s, H', R', out'⟩ := by
      refine leads_object hp hhp' fun table R'' hhp'' hR'' => ?_
      rw [hhi]
      exact leads_done (Nat.le_refl hi) ⟨table, R'', rfl, hhp'', hR''⟩
    refine (hleads.walks fun c'' hc => ?_).mono fun cs' c'' hwalk hc => ?_
    · obtain ⟨table, R'', rfl, hhp'', hR''⟩ := hc
      refine ⟨hR'' .fp (by decide), hR'' .ra (by decide), hhp'', ?_, ?_⟩
      · exact (List.prefix_append _ _).trans (List.prefix_append _ _)
      · simp only [List.length_append, List.length_singleton]
        omega
    · obtain ⟨table, R'', rfl, hhp'', -⟩ := hc
      refine ⟨⟨_, _, _, _, rfl⟩, _, List.mem_append_right _ List.mem_cons_self, H', vs, table, rfl, rfl, rfl, hhp'',
        List.prefix_refl _, List.forall₂_map_left_iff.2 (hvs.imp fun x v => ?_)⟩
      rintro ⟨d, hd, hip, htop⟩
      exact ⟨d, hwalk.mem_append_left hd, hip, htop⟩
  rw [List.append_nil] at hwalks
  refine Goes.mono hwalks fun cs c' hc => ?_
  obtain ⟨hwalk, htops, hmade⟩ := hc
  refine ⟨?_, htops⟩
  obtain ⟨v, H', R', out', rfl⟩ := htops
  have hsize : xs.length + 1 = Allocation.size ⟨start, xs.map Stretch.stop, hi⟩ := by
    rw [Allocation.size, List.length_map]
  rw [hsize] at hwalk
  exact hwalk.enclose rfl rfl rfl hlt hmade

/-- **The code of an expression without calls takes a way through its stretch** and leaves a value on the stack. -/
theorem Generator.Occupies.evaluates (h : Occupies a t frameBase inClass e x)
    (hlabels : ∀ {i : Nat} {l : String}, image.get? i = some (.label l) → image.addressOf? l = some i)
    (hp : image.Placed x.start x.code) : x.Evaluates image M := by
  induction h with
  | int | bool | null =>
    intro s H R out hhp
    refine evaluates_of_leads (Nat.le_refl _) nofun hhp ?_
    exact leads_push hp.1 rfl hhp fun _ => leads_done_puts
  | @name e name r start hx hget =>
    intro s H R out hhp
    obtain ⟨hframe, hload⟩ := Image.placed_append.1 hp
    refine evaluates_of_leads (Nat.le_refl _) nofun hhp ?_
    refine leads_frameOf hframe hhp fun w => leads_loadAt hload hhp fun w => ?_
    rw [Stretch.stop, List.length_append, ← Nat.add_assoc]
    exact leads_done_puts
  | @binary _ left right op x y tail hx hne hleft hright hstart htail ihx ihy =>
    intro s H R out hhp
    obtain ⟨hfirst, hrest⟩ := Image.placed_append.1 hp
    rw [Stretch.stop, List.length_append, ← Nat.add_assoc]
    refine Evaluates.bind (ihx hfirst hhp) fun v H' R' out' hhp' => ?_
    exact evaluates_tail hlabels htail hrest hstart hright.between ihy hhp'
  | @greaterEqual _ left right x y tail hx hright hleft hstart htail ihx ihy =>
    intro s H R out hhp
    obtain ⟨hfirst, hrest⟩ := Image.placed_append.1 hp
    rw [Stretch.stop, List.length_append, ← Nat.add_assoc]
    refine Evaluates.bind (ihx hfirst hhp) fun v H' R' out' hhp' => ?_
    exact evaluates_tail hlabels htail hrest hstart hleft.between ihy hhp'
  | @not _ operand x onTrue done hx hoperand ih =>
    intro s H R out hhp
    obtain ⟨hfirst, hpush, htruth⟩ := Image.placed_append.1 hp
    rw [Stretch.stop, List.length_append, ← Nat.add_assoc]
    refine Evaluates.leads (ih hfirst hhp) fun v H' R' out' hhp' => leads_push hpush rfl hhp' fun _ => ?_
    exact backward_leads.truth hlabels htruth hhp' leads_done_puts
  | @print _ operand x hx hoperand ih =>
    intro s H R out hhp
    obtain ⟨hrest, hprint, -⟩ := Image.placed_append.1 hp
    obtain ⟨hfirst, hduplicate⟩ := Image.placed_append.1 hrest
    rw [List.length_append, ← Nat.add_assoc] at hprint
    rw [Stretch.stop, List.length_append, List.length_append, ← Nat.add_assoc, ← Nat.add_assoc]
    refine Evaluates.leads (ih hfirst hhp) fun v H' R' out' hhp' => ?_
    refine backward_leads.duplicate hduplicate hhp' (fun _ _ => trivial) (backward_leads.print hprint ?_)
    exact leads_done (Nat.le_refl _) ⟨v, _, _, rfl, fun r hr => Function.update_of_ne hr _ _⟩
  | @ifElse _ condition onTrue onFalse x y z first done hx hcondition hfalse htrue hystart hzstart ihx ihy ihz =>
    intro s H R out hhp
    simp only [List.append_assoc] at hp
    obtain ⟨hfirst, hrest⟩ := Image.placed_append.1 hp
    have hystop : y.stop = y.start + y.code.length := rfl
    have hzstop : z.stop = z.start + z.code.length := rfl
    have hend : x.start + (x.code ++ [Instruction.push 1, .branch .equal first] ++ y.code ++
        [Instruction.jump done, .label first] ++ z.code ++ [Instruction.label done]).length = z.stop + 1 := by
      rw [Stretch.stop] at hystart
      simp only [List.length_append, List.length_cons, List.length_nil]
      omega
    rw [Stretch.stop, hend, List.append_assoc x.allocations]
    refine Evaluates.bind (ihx hfirst hhp) fun v H' R' out' hhp' => ?_
    exact evaluates_branches hlabels hrest hystart hzstart hfalse.between htrue.between ihy ihz hhp'
  | @new e name args r start xs code hx hget hlength hargs hadjacent hcode ih =>
    intro s H R out hhp
    rw [hcode, ← hlength] at hp
    obtain ⟨hargs', hobject⟩ := Image.placed_append.1 hp
    have hxs : ∀ x ∈ xs, x.Evaluates image M := by
      intro x hx
      obtain ⟨arg, hmem⟩ := exists_zip_of_mem hlength hx
      exact ih _ hmem (hadjacent.placed hargs' hx)
    refine evaluates_new hxs hadjacent rfl ?_ hobject hhp
    rw [hcode, Stretch.stop, List.length_append, hlength, Nat.add_assoc]

end Expressions

end Fool
