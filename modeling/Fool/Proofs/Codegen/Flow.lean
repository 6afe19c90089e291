import Fool.Proofs.Binding.Clean
import Fool.Proofs.Machine.Load
import Fool.Proofs.Machine.Onward

/-!
# Where control goes in generated code

Generated code is a main part, which ends in the only `halt`, and behind it the units of functions and methods, each
behind its own entry. Control never jumps back inside a part, leaves it by `jumpSub` alone, and reaches a unit through
the one place at which its entry is put on the stack. `Part code units` is what every step of code generation keeps of
its code and of the units that it finishes; `yields_bind` puts two steps in a row. The steps for expressions are
`Quiet`, they finish no units.
-/

namespace Fool

open LabelSupply

/-- The entry that an instruction puts on the stack. -/
def Instruction.pushedLabel? : Instruction → Option String
  | pushLabel l => some l
  | _ => none

/-- The instruction goes on to the next one, and puts no entry on the stack. -/
def Instruction.straight : Instruction → Bool
  | jump _ | branch .. | pushLabel _ | halt => false
  | _ => true

theorem Instruction.plain_of_straight {i : Instruction} (h : i.straight = true) :
    i.jump? = none ∧ i.pushedLabel? = none ∧ i ≠ .halt := by
  cases i <;> simp_all [straight, jump?, pushedLabel?]

namespace Code

variable {i : Instruction} {l : String} {code left right unit : Code} {units units' : List Code}

/-! ## Jumps and entries -/

/-- Every jump leads to a label of the code that stands further on, one of the labels inside pieces of code. -/
def Forward (code : Code) : Prop :=
  ∀ (i : Nat) (x : Instruction) (l : String), code[i]? = some x → x.jump? = some l →
    (∃ n, l = labelText n) ∧ ∃ j : Nat, i < j ∧ code[j]? = some (.label l)

@[simp] theorem forward_nil : Forward [] := fun i x l hx => by simp at hx

/-- An instruction before the code may jump to the labels of the code. -/
theorem forward_cons (hjump : ∀ l, i.jump? = some l → (∃ n, l = labelText n) ∧ .label l ∈ code)
    (h : code.Forward) : Forward (i :: code) := by
  intro k x l hx hl
  cases k with
  | zero =>
    obtain rfl := Option.some.inj hx
    obtain ⟨hname, hmem⟩ := hjump l hl
    obtain ⟨j, hj⟩ := List.getElem?_of_mem hmem
    exact ⟨hname, j + 1, Nat.succ_pos j, hj⟩
  | succ k =>
    obtain ⟨hname, j, hlt, hj⟩ := h k x l hx hl
    exact ⟨hname, j + 1, Nat.succ_lt_succ hlt, hj⟩

theorem forward_append (hleft : left.Forward) (hright : right.Forward) : Forward (left ++ right) := by
  intro k x l hx hl
  by_cases hk : k < left.length
  · rw [List.getElem?_append_left hk] at hx
    obtain ⟨hname, j, hlt, hj⟩ := hleft k x l hx hl
    have hjlen := (List.getElem?_eq_some_iff.1 hj).1
    exact ⟨hname, j, hlt, by rw [List.getElem?_append_left hjlen, hj]⟩
  · rw [List.getElem?_append_right (Nat.le_of_not_lt hk)] at hx
    obtain ⟨hname, j, hlt, hj⟩ := hright _ x l hx hl
    exact ⟨hname, left.length + j, by omega, by rw [List.getElem?_append_right (by omega), ← hj]; congr 1; omega⟩

theorem forward_flatten (h : ∀ unit ∈ units, unit.Forward) : Forward units.flatten := by
  induction units with
  | nil => exact forward_nil
  | cons unit units ih =>
    rw [List.flatten_cons]
    exact forward_append (h unit List.mem_cons_self) (ih fun unit' hunit' => h unit' (List.mem_cons_of_mem _ hunit'))

/-- The entries that code puts on the stack, in order. -/
def entries (code : Code) : List String := code.filterMap (·.pushedLabel?)

@[simp] theorem entries_nil : entries [] = [] := rfl

@[simp] theorem entries_cons (i : Instruction) (code : Code) :
    entries (i :: code) = i.pushedLabel?.toList ++ entries code := by
  cases h : i.pushedLabel? <;> simp [entries, h]

@[simp] theorem entries_append (left right : Code) : entries (left ++ right) = entries left ++ entries right :=
  List.filterMap_append

/-- The label with which a unit begins. -/
def opening? (unit : Code) : Option String := unit.head?.bind (·.defined?)

/-- A unit begins with the label of its entry and ends in `jumpSub`; inside it every jump leads forward, and it does
not halt. -/
structure IsUnit (unit : Code) : Prop where
  opens : ∃ n, unit.head? = some (.label (functionText n))
  closes : unit.getLast? = some .jumpSub
  forward : unit.Forward
  halt : .halt ∉ unit

/-! ## Parts -/

/-- Code and the units that are finished with it: nothing jumps back or halts, and the entries of the units are what
the code and the units put on the stack. -/
structure Part (code : Code) (units : List Code) : Prop where
  forward : code.Forward
  halt : .halt ∉ code
  isUnit : ∀ unit ∈ units, unit.IsUnit
  entries : (code.entries ++ entries units.flatten).Perm (units.filterMap opening?)

theorem Part.nil : Part [] [] := ⟨forward_nil, List.not_mem_nil, by simp, by simp⟩

/-- The units of both codes may come in any order. -/
theorem Part.append {all : List Code} (hleft : Part left units) (hright : Part right units')
    (hall : all.Perm (units ++ units')) : Part (left ++ right) all where
  forward := forward_append hleft.forward hright.forward
  halt := by simp [hleft.halt, hright.halt]
  isUnit unit hunit := (List.mem_append.1 (hall.mem_iff.1 hunit)).elim (hleft.isUnit unit) (hright.isUnit unit)
  entries := by
    have hentries : (Code.entries all.flatten).Perm (Code.entries units.flatten ++ Code.entries units'.flatten) := by
      rw [← entries_append, ← List.flatten_append]
      exact (hall.flatten).filterMap _
    have hopening := hall.filterMap opening?
    have hl := hleft.entries
    have hr := hright.entries
    rw [List.perm_iff_count] at *
    intro l
    have := hentries l
    have := hopening l
    have := hl l
    have := hr l
    simp only [entries_append, List.filterMap_append, List.count_append] at *
    omega

/-- A jump before the code that leads into it. -/
theorem Part.jump (hi : i.jump? = some l) (hl : ∃ n, l = labelText n) (hmem : .label l ∈ code) (h : Part code units) :
    Part (i :: code) units := by
  have hjump : ∀ l', i.jump? = some l' → (∃ n, l' = labelText n) ∧ .label l' ∈ code := fun l' hl' => by
    obtain rfl := Option.some.inj (hi.symm.trans hl')
    exact ⟨hl, hmem⟩
  have hhalt : i ≠ .halt := by
    rintro rfl
    cases hi
  have hentry : i.pushedLabel? = none := by cases i <;> first | rfl | cases hi
  exact ⟨forward_cons hjump h.forward, by simp [h.halt, hhalt.symm], h.isUnit, by simpa [hentry] using h.entries⟩

/-- Instructions that go on to the next one. -/
def Straight (code : Code) : Prop := code.all (·.straight) = true

theorem Straight.append (hleft : left.Straight) (hright : right.Straight) : Straight (left ++ right) := by
  rw [Straight, List.all_append, hleft, hright]
  rfl

theorem straight_replicate (hi : i.straight = true) (n : Nat) : Straight (List.replicate n i) := by
  rw [Straight, List.all_eq_true]
  intro j hj
  rw [List.eq_of_mem_replicate hj, hi]

theorem Part.of_straight (h : code.Straight) : Part code [] := by
  have hplain i (hi : i ∈ code) := Instruction.plain_of_straight (List.all_eq_true.1 h i hi)
  have hentries : Code.entries code = [] := List.filterMap_eq_nil_iff.2 fun i hi => (hplain i hi).2.1
  refine ⟨fun k i l hi hl => ?_, fun hmem => (hplain _ hmem).2.2 rfl, by simp, by simp [hentries]⟩
  have hnone := (hplain i (List.mem_of_getElem? hi)).1
  rw [hl] at hnone
  cases hnone

/-- Straight instructions before the code. -/
theorem Part.behind (left : Code) (h : Part code units) (hleft : left.Straight) : Part (left ++ code) units :=
  (Part.of_straight hleft).append h (List.Perm.refl _)

/-- Straight instructions after the code. -/
theorem Part.before (right : Code) (h : Part code units) (hright : right.Straight) : Part (code ++ right) units :=
  h.append (Part.of_straight hright) (by simp)

/-- A jump before the code that gives a truth value, to the 1 there. -/
theorem part_truth {onTrue done : String} {on : Comparison} (honTrue : ∃ n, onTrue = labelText n)
    (hdone : ∃ n, done = labelText n) : Part (.branch on onTrue :: truth onTrue done) [] := by
  have hend : Part [.label onTrue, .push 1, .label done] [] := Part.of_straight rfl
  have hjump : Part (.jump done :: [.label onTrue, .push 1, .label done]) [] := hend.jump rfl hdone (by simp)
  have htruth : Part (truth onTrue done) [] := hjump.behind [.push 0] rfl
  exact htruth.jump rfl honTrue (by simp [truth])

/-- A unit behind its entry is finished with the code that puts the entry on the stack. -/
theorem Part.entry {n : Nat} (h : Part unit units) (hopens : unit.head? = some (.label (functionText n)))
    (hcloses : unit.getLast? = some .jumpSub) : Part [.pushLabel (functionText n)] (units ++ [unit]) where
  forward := forward_cons (fun l hl => nomatch hl) forward_nil
  halt := by simp
  isUnit unit' hunit' := by
    rcases List.mem_append.1 hunit' with hunit' | hunit'
    · exact h.isUnit unit' hunit'
    · rw [List.mem_singleton.1 hunit']
      exact ⟨⟨n, hopens⟩, hcloses, h.forward, h.halt⟩
  entries := by
    have hopening : opening? unit = some (functionText n) := by rw [opening?, hopens]; rfl
    have hentries := h.entries
    rw [List.perm_iff_count] at hentries ⊢
    intro l
    have := hentries l
    simp [hopening, Instruction.pushedLabel?, List.count_cons] at this ⊢
    omega

end Code

namespace Generator

open Code

variable {α β : Type} {P : α → List Code → Prop} {Q : β → List Code → Prop}

/-! ## What a step of code generation yields -/

/-- The answer of the step and the units that it finishes have the property. -/
def Yields (m : GenM α) (P : α → List Code → Prop) : Prop :=
  ∀ g a g', m g = .ok (a, g') → ∃ new, g'.units = g.units ++ new ∧ P a new

theorem yields_pure {a : α} (h : P a []) : Yields (pure a) P := by
  intro g a' g' hrun
  cases hrun
  exact ⟨[], (List.append_nil _).symm, h⟩

theorem yields_throw (e : CodegenError) : Yields (throw e : GenM α) P := by
  intro g a g' hrun
  cases hrun

/-- Two steps in a row. -/
theorem yields_bind {m : GenM α} {f : α → GenM β} (hm : Yields m P)
    (hf : ∀ a new, P a new → Yields (f a) fun b new' => Q b (new ++ new')) : Yields (m >>= f) Q := by
  intro g b g'' hrun
  have heq : (m >>= f) g = (m g >>= fun r => f r.1 r.2) := rfl
  rw [heq] at hrun
  cases hg : m g with
  | error e =>
    rw [hg] at hrun
    cases hrun
  | ok r =>
    obtain ⟨a, g'⟩ := r
    rw [hg] at hrun
    obtain ⟨new, hunits, ha⟩ := hm g a g' hg
    obtain ⟨new', hunits', hb⟩ := hf a new ha g' b g'' hrun
    exact ⟨new ++ new', by rw [hunits', hunits, List.append_assoc], hb⟩

theorem Yields.imp {m : GenM α} {P' : α → List Code → Prop} (h : Yields m P) (himp : ∀ a new, P a new → P' a new) :
    Yields m P' := fun g a g' hrun =>
  let ⟨new, hunits, ha⟩ := h g a g' hrun
  ⟨new, hunits, himp a new ha⟩

/-- A step for each element of a list. -/
theorem yields_mapM {f : α → GenM β} {code : β → Code} (h : ∀ x, Yields (f x) fun y new => Part (code y) new) :
    ∀ xs : List α, Yields (xs.mapM f) fun ys new => Part (ys.map code).flatten new
  | [] => yields_pure Part.nil
  | x :: xs => by
    rw [List.mapM_cons]
    refine yields_bind (h x) fun y new hy => yields_bind (yields_mapM h xs) fun ys new' hys => yields_pure ?_
    rw [List.append_nil, List.map_cons, List.flatten_cons]
    exact hy.append hys (List.Perm.refl _)

/-! ## Steps that finish no units -/

/-- The answer of the step has the property, and no unit is finished with it. -/
def Quiet (m : GenM α) (R : α → Prop) : Prop := ∀ g a g', m g = .ok (a, g') → g'.units = g.units ∧ R a

section Quiet

variable {R R' : α → Prop} {S : β → Prop} {m : GenM α} {f : α → GenM β}

theorem quiet_pure {a : α} (h : R a) : Quiet (pure a) R := by
  intro g a' g' hrun
  cases hrun
  exact ⟨rfl, h⟩

theorem quiet_throw (e : CodegenError) : Quiet (throw e : GenM α) R := by
  intro g a g' hrun
  cases hrun

theorem Quiet.yields (h : Quiet m R) (hP : ∀ a, R a → P a []) : Yields m P := by
  intro g a g' hrun
  obtain ⟨hunits, ha⟩ := h g a g' hrun
  exact ⟨[], by rw [hunits, List.append_nil], hP a ha⟩

theorem Quiet.imp (h : Quiet m R) (himp : ∀ a, R a → R' a) : Quiet m R' := fun g a g' hrun =>
  (h g a g' hrun).imp_right (himp a)

/-- A quiet step in front. -/
theorem Quiet.bind_yields (hm : Quiet m R) (hf : ∀ a, R a → Yields (f a) Q) : Yields (m >>= f) Q := by
  refine yields_bind (P := fun a new => new = [] ∧ R a) (hm.yields fun a ha => ⟨rfl, ha⟩) ?_
  rintro a _ ⟨rfl, ha⟩
  exact hf a ha

/-- Two quiet steps in a row. -/
theorem Quiet.bind (hm : Quiet m R) (hf : ∀ a, R a → Quiet (f a) S) : Quiet (m >>= f) S := by
  intro g b g'' hrun
  have hyields : Yields (m >>= f) fun b new => new = [] ∧ S b :=
    hm.bind_yields fun a ha => (hf a ha).yields fun b hb => ⟨rfl, hb⟩
  obtain ⟨new, hunits, rfl, hb⟩ := hyields g b g'' hrun
  exact ⟨by rw [hunits, List.append_nil], hb⟩

/-- A quiet step for each element of a list. -/
theorem quiet_forall {R : α → β → Prop} : ∀ xs : List α, (∀ x ∈ xs, Quiet (f x) (R x)) →
    Quiet (xs.mapM f) fun ys => List.Forall₂ R xs ys
  | [], _ => quiet_pure .nil
  | x :: xs, h => by
    rw [List.mapM_cons]
    refine (h x List.mem_cons_self).bind fun y hy => ?_
    refine (quiet_forall xs fun x' hx' => h x' (List.mem_cons_of_mem x hx')).bind fun ys hys => ?_
    exact quiet_pure (.cons hy hys)

end Quiet

theorem quiet_get : Quiet (get : GenM Generator) fun _ => True := by
  intro g a g' hrun
  cases hrun
  exact ⟨rfl, trivial⟩

theorem quiet_setInClass (inClass : Bool) : Quiet (setInClass inClass) fun _ => True := by
  intro g a g' hrun
  cases hrun
  exact ⟨rfl, trivial⟩

theorem quiet_freshLabel : Quiet freshLabel fun l => ∃ n, l = labelText n := by
  intro g l g' hrun
  cases hrun
  exact ⟨rfl, g.supply.labels, rfl⟩

theorem quiet_freshFunction : Quiet freshFunction fun l => ∃ n, l = functionText n := by
  intro g l g' hrun
  cases hrun
  exact ⟨rfl, g.supply.functions, rfl⟩

theorem yields_addUnit (unit : Code) : Yields (addUnit unit) fun _ new => new = [unit] := by
  intro g a g' hrun
  cases hrun
  exact ⟨[unit], rfl, rfl⟩

/-! ## Expressions -/

theorem quiet_operatorTail (op : Operator) (right : Code) :
    Quiet (operatorTail op right) fun tail => Part right [] → Part tail [] := by
  unfold operatorTail
  cases op with
  | equal | lessEqual | greaterEqual =>
    refine quiet_freshLabel.bind fun onTrue honTrue => quiet_freshLabel.bind fun done hdone => quiet_pure ?_
    intro hright
    rw [List.append_assoc]
    exact hright.append (part_truth honTrue hdone) (List.Perm.refl _)
  | or =>
    refine quiet_freshLabel.bind fun onTrue honTrue => quiet_freshLabel.bind fun done hdone => quiet_pure ?_
    intro hright
    have hend : Part ([.push 1] ++ .branch .equal onTrue :: truth onTrue done) [] :=
      (part_truth honTrue hdone).behind [.push 1] rfl
    have hbranch : Part (.branch .equal onTrue :: (right ++ .push 1 :: .branch .equal onTrue :: truth onTrue done)) [] :=
      (hright.append hend (List.Perm.refl _)).jump rfl honTrue (by simp [truth])
    simpa using hbranch.behind [.push 1] rfl
  | _ => exact quiet_pure fun hright => hright.before _ rfl

theorem quiet_operatorCode {left right : Code} (op : Operator) (hleft : Part left []) (hright : Part right []) :
    Quiet (operatorCode op left right) fun code => Part code [] := by
  unfold operatorCode
  split
  · refine (quiet_operatorTail op left).bind fun tail htail => quiet_pure ?_
    exact hright.append (htail hleft) (List.Perm.refl _)
  · refine (quiet_operatorTail op right).bind fun tail htail => quiet_pure ?_
    exact hleft.append (htail hright) (List.Perm.refl _)

variable {a : Arena} {t : Resolutions} {frameBase : Int64} {e : ExprRef}

theorem quiet_frameCode (r : Resolution) : Quiet (frameCode frameBase r) Straight := by
  refine quiet_get.bind fun g _ => ?_
  split
  · exact quiet_pure rfl
  · have hhops : Straight (List.replicate r.hops .loadWord) := straight_replicate rfl r.hops
    exact quiet_pure hhops

theorem quiet_targetCode (r : Resolution) : Quiet (targetCode frameBase r) Straight := by
  refine (quiet_frameCode r).bind fun frame hframe => ?_
  have hduplicate : Straight (frame ++ duplicate) := hframe.append rfl
  have hframe' : Straight ([.push frameBase] ++ frame) := hframe
  split <;> refine quiet_pure ?_
  · exact hduplicate.append (rfl : Straight (loadAt r.entry.offset))
  · have hload : Straight (frame ++ duplicate ++ [.loadWord]) := hduplicate.append rfl
    exact hload.append (rfl : Straight (loadAt r.entry.offset))
  · exact hframe'.append (rfl : Straight (loadAt r.entry.offset))

theorem quiet_resolution : Quiet (resolution t e) fun _ => True := by
  unfold resolution
  split
  · exact quiet_pure trivial
  · exact quiet_throw _

/-- The codes of a list of expressions. -/
theorem quiet_codes {β : Type} {operand : β → GenM Code} (h : ∀ x, Quiet (operand x) fun code => Part code [])
    (xs : List β) : Quiet (xs.mapM operand) fun codes => Part codes.flatten [] := by
  refine (quiet_forall (R := fun _ code => Part code []) xs fun x _ => h x).imp fun codes hcodes => ?_
  induction hcodes with
  | nil => exact Part.nil
  | cons hcode _ ih => exact hcode.append ih (List.Perm.refl _)

theorem quiet_headCode {operand : ExprRef → GenM Code} (h : ∀ e, Quiet (operand e) fun code => Part code [])
    (e : ExprRef) : Quiet (headCode a operand e) fun code => Part code [] := by
  unfold headCode
  split
  · rename_i op left right _
    exact (h left).bind fun left hleft => (h right).bind fun right hright => quiet_operatorCode op hleft hright
  · exact h e

theorem quiet_chainCode {operand : ExprRef → GenM Code} (h : ∀ e, Quiet (operand e) fun code => Part code [])
    (e : ExprRef) : Quiet (chainCode a operand e) fun code => Part code [] := by
  have htail : ∀ q : Operator × ExprRef, Quiet (do operatorTail q.1 (← operand q.2)) fun tail => Part tail [] := fun q =>
    (h q.2).bind fun right hright => (quiet_operatorTail q.1 right).imp fun tail htail => htail hright
  refine (quiet_headCode h _).bind fun head hhead => (quiet_codes htail _).bind fun tails htails => quiet_pure ?_
  exact hhead.append htails (List.Perm.refl _)

/-- **In the code of an expression control goes forward,** and no units are finished with it. -/
theorem quiet_exprCode (n : Nat) (e : ExprRef) : Quiet (exprCode a t frameBase n e) fun code => Part code [] := by
  induction n generalizing e with
  | zero => exact quiet_throw _
  | succ n ih =>
    rw [exprCode]
    split
    · exact quiet_throw _
    · exact quiet_pure (Part.of_straight rfl)
    · exact quiet_pure (Part.of_straight rfl)
    · exact quiet_pure (Part.of_straight rfl)
    · exact quiet_chainCode ih e
    · -- a negation
      refine quiet_freshLabel.bind fun onTrue honTrue => quiet_freshLabel.bind fun done hdone => ?_
      refine (ih _).bind fun operand hoperand => quiet_pure ?_
      have htest : Part (.push 0 :: .branch .equal onTrue :: truth onTrue done) [] :=
        (part_truth honTrue hdone).behind [.push 0] rfl
      simpa using hoperand.append htest (List.Perm.refl _)
    · -- an alternative
      refine quiet_freshLabel.bind fun first hfirst => quiet_freshLabel.bind fun done hdone => ?_
      refine (ih _).bind fun condition hcondition => ?_
      refine (ih _).bind fun onFalse honFalse => (ih _).bind fun onTrue honTrue => quiet_pure ?_
      have hthen : Part (.label first :: (onTrue ++ [.label done])) [] :=
        (honTrue.before [.label done] rfl).behind [.label first] rfl
      have helse := honFalse.append (hthen.jump (i := .jump done) rfl hdone (by simp)) (List.Perm.refl _)
      have hbranch := (helse.jump (i := .branch .equal first) rfl hfirst (by simp)).behind [.push 1] rfl
      simpa using hcondition.append hbranch (List.Perm.refl _)
    · refine (ih _).bind fun operand hoperand => quiet_pure ?_
      simpa using (hoperand.before duplicate rfl).before [.print] rfl
    · refine quiet_resolution.bind fun r _ => (quiet_frameCode r).bind fun frame hframe => quiet_pure ?_
      exact Part.of_straight (hframe.append (rfl : Straight (loadAt r.entry.offset)))
    · rename_i args _
      refine quiet_resolution.bind fun r _ => (quiet_codes ih args.reverse).bind fun args hargs => ?_
      refine (quiet_targetCode r).bind fun target htarget => quiet_pure ?_
      simpa using (hargs.behind [.load .fp] rfl).before _ (htarget.append (rfl : Straight [.jumpSub]))
    · rename_i args _
      refine quiet_resolution.bind fun r _ => ?_
      split
      · exact quiet_throw _
      · rename_i method _
        refine (quiet_codes ih args.reverse).bind fun args hargs => ?_
        refine (quiet_frameCode r).bind fun frame hframe => quiet_pure ?_
        have hcall : Straight (loadAt r.entry.offset ++ duplicate ++ [.loadWord] ++ loadAt method.offset ++ [.jumpSub]) := rfl
        simpa using (hargs.behind [.load .fp] rfl).before _ (hframe.append hcall)
    · rename_i args _
      refine quiet_resolution.bind fun r _ => (quiet_codes ih args).bind fun values hvalues => quiet_pure ?_
      have hfields : Straight (args.map fun _ => pushToHeap).flatten := by
        rw [Straight, List.all_eq_true]
        intro i hi
        obtain ⟨piece, hpiece, hi⟩ := List.mem_flatten.1 hi
        obtain ⟨_, _, rfl⟩ := List.mem_map.1 hpiece
        exact List.all_eq_true.1 (rfl : Straight pushToHeap) i hi
      have htable : Straight ([.push (frameBase + Int64.ofInt r.entry.offset), .loadWord, .load .hp, .storeWord,
        .load .hp] ++ bumpHeap) := rfl
      simpa using hvalues.before _ (hfields.append htable)

/-! ## Declarations -/

theorem yields_functionUnit {localCode : DeclRef → GenM Code} (h : ∀ d, Yields (localCode d) Part) (entry : String)
    (f : Function) : Yields (functionUnit a t frameBase localCode entry f) fun unit new =>
      Part unit new ∧ unit.head? = some (.label entry) ∧ unit.getLast? = some .jumpSub := by
  have hpops {γ : Type} (xs : List γ) : Straight (xs.map fun _ => Instruction.pop) := by
    rw [List.map_const']
    exact straight_replicate rfl _
  refine yields_bind (yields_mapM h f.locals) fun locals new hlocals => ?_
  refine (quiet_exprCode maxNesting f.body).bind_yields fun body hbody => ?_
  refine yields_pure ⟨?_, by simp, by rw [List.getLast?_append]; rfl⟩
  rw [List.map_id'] at hlocals
  have hopen := hlocals.behind [.label entry, .copyFp, .load .ra] rfl
  have hclose : Straight ([Instruction.store .tm] ++ (f.locals.map fun _ => Instruction.pop) ++
      [Instruction.store .ra, .pop] ++ (f.params.map fun _ => Instruction.pop) ++
        [Instruction.store .fp, .load .tm, .load .ra, .jumpSub]) :=
    (((hpops f.locals : Straight ([Instruction.store .tm] ++ _)).append (rfl : Straight [.store .ra, .pop])).append
      (hpops f.params)).append (rfl : Straight [.store .fp, .load .tm, .load .ra, .jumpSub])
  simpa using (hopen.append hbody (List.Perm.refl _)).before _ hclose

theorem yields_addFunction {localCode : DeclRef → GenM Code} (h : ∀ d, Yields (localCode d) Part) (f : Function) :
    Yields (addFunction a t frameBase localCode f) fun entry new => Part [.pushLabel entry] new := by
  refine quiet_freshFunction.bind_yields fun entry hentry => ?_
  obtain ⟨n, rfl⟩ := hentry
  refine yields_bind (yields_functionUnit h _ f) fun unit new hunit => ?_
  obtain ⟨hunit, hopens, hcloses⟩ := hunit
  refine yields_bind (yields_addUnit unit) fun _ _ hnew => yields_pure ?_
  subst hnew
  simpa using hunit.entry hopens hcloses

theorem yields_methodTable {localCode : DeclRef → GenM Code} (h : ∀ d, Yields (localCode d) Part) (c : Class) :
    Yields (methodTable a t frameBase localCode c) Part := by
  have hmethod (f : Function) : Yields (addFunction a t frameBase localCode f)
      fun entry new => Part (.pushLabel entry :: pushToHeap) new :=
    (yields_addFunction h f).imp fun _ _ hentry => hentry.before pushToHeap rfl
  refine (quiet_setInClass true).bind_yields fun _ _ => ?_
  refine yields_bind (yields_mapM hmethod c.methods) fun entries new hentries => ?_
  refine (quiet_setInClass false).bind_yields fun _ _ => yields_pure ?_
  simpa using hentries.behind [.load .hp] rfl

/-- **In the code of a declaration control goes forward,** and the units that are finished with it are units. -/
theorem yields_declCode (n : Nat) (d : DeclRef) : Yields (declCode a t frameBase n d) Part := by
  induction n generalizing d with
  | zero => exact yields_throw _
  | succ n ih =>
    rw [declCode]
    split
    · exact yields_throw _
    · exact (quiet_exprCode maxNesting _).yields fun code hcode => hcode
    · exact yields_bind (yields_addFunction ih _) fun entry new hentry => yields_pure (by simpa using hentry)
    · exact yields_methodTable ih _

theorem yields_mainCode {p : Program} :
    Yields (p.mainCode t frameBase) fun code new => ∃ main, code = main ++ [Instruction.halt] ∧ Part main new := by
  refine yields_bind (yields_mapM (yields_declCode _) p.declarations) fun decls new hdecls => ?_
  refine (quiet_exprCode maxNesting p.body).bind_yields fun body hbody => yields_pure ⟨_, rfl, ?_⟩
  rw [List.map_id'] at hdecls
  have hunused : Straight (if p.declarations.isEmpty then [] else [.push 0]) := by split <;> rfl
  exact (hdecls.behind _ hunused).append hbody (List.Perm.refl _)

end Generator

/-! ## Whole programs -/

namespace Code

variable {l : String} {code main unit : Code} {units : List Code}

/-- Code is a main part, the only `halt`, and units. -/
structure Flows (code main : Code) (units : List Code) : Prop where
  parts : code = main ++ [.halt] ++ units.flatten
  halt : .halt ∉ main
  forward : main.Forward
  isUnit : ∀ unit ∈ units, unit.IsUnit
  /-- No two units begin with the same label. -/
  own : (units.map (·.head?)).Nodup
  /-- A label is defined once. -/
  labelled : ∀ l, .label l ∈ code → code.count (.label l) = 1
  /-- What an instruction refers to is defined. -/
  defined : ∀ i ∈ code, ∀ l, i.target? = some l → .label l ∈ code
  /-- Whatever label is put on the stack is the entry of a unit. -/
  entered : ∀ l, .pushLabel l ∈ code → ∃ unit ∈ units, unit.head? = some (.label l)
  /-- The entry of a unit is put on the stack in one place. -/
  once : ∀ unit ∈ units, ∀ l, unit.head? = some (.label l) → code.count (.pushLabel l) = 1

theorem count_defined (l : String) (code : Code) : code.defined.count l = code.count (.label l) := by
  induction code with
  | nil => rfl
  | cons i code ih => cases i <;> simp [Instruction.defined?, List.count_cons, ih]

theorem count_entries (l : String) (code : Code) : code.entries.count l = code.count (.pushLabel l) := by
  induction code with
  | nil => rfl
  | cons i code ih => cases i <;> simp [Instruction.pushedLabel?, List.count_cons, ih]

theorem opening?_eq_some : opening? unit = some l ↔ unit.head? = some (.label l) := by
  cases unit with
  | nil => simp [opening?]
  | cons i unit => cases i <;> simp [opening?, Instruction.defined?]

/-- The labels with which the units begin are among those that the units define. -/
theorem openings_sublist : ∀ units : List Code, (units.filterMap opening?).Sublist (defined units.flatten)
  | [] => List.Sublist.slnil
  | [] :: units => openings_sublist units
  | (i :: unit) :: units => by
    have hsub := (openings_sublist units).trans (List.sublist_append_right (defined unit) _)
    cases hi : i.defined? <;> simpa [opening?, List.filterMap_cons, hi] using hsub

/-- A main part and units whose labels are in order make up code. -/
theorem Part.flows (h : Part main units) (hclosed : Code.Closed (main ++ [Instruction.halt] ++ units.flatten)) :
    Flows (main ++ [Instruction.halt] ++ units.flatten) main units := by
  have hopenings : (units.filterMap opening?).Nodup := by
    have hnodup := hclosed.nodup
    rw [defined_append] at hnodup
    exact (openings_sublist units).nodup hnodup.of_append_right
  have hentries : (Code.entries (main ++ [Instruction.halt] ++ units.flatten)).Perm (units.filterMap opening?) := by
    simpa [Instruction.pushedLabel?] using h.entries
  have hheads : units.map (·.head?) = (units.filterMap opening?).map fun l => some (.label l) := by
    have hall := h.isUnit
    clear h hclosed hopenings hentries
    induction units with
    | nil => rfl
    | cons unit units ih =>
      obtain ⟨n, hopens⟩ := (hall unit List.mem_cons_self).opens
      rw [List.map_cons, List.filterMap_cons_some (opening?_eq_some.2 hopens), List.map_cons, hopens,
        ih fun unit' hunit' => hall unit' (List.mem_cons_of_mem _ hunit')]
  refine ⟨rfl, h.halt, h.forward, h.isUnit, ?_, fun l hl => ?_, fun i hi l hl => ?_, fun l hl => ?_,
    fun unit hunit l hl => ?_⟩
  · rw [hheads]
    exact hopenings.map fun l l' hl => by simpa using hl
  · rw [← count_defined]
    refine List.count_eq_one_of_mem hclosed.nodup ?_
    exact List.mem_filterMap.2 ⟨_, hl, rfl⟩
  · obtain ⟨x, hx, hxl⟩ := List.mem_filterMap.1 (hclosed.used l (List.mem_filterMap.2 ⟨i, hi, hl⟩))
    have hlabel : x = .label l := by
      cases x <;> cases hxl
      rfl
    exact hlabel ▸ hx
  · obtain ⟨unit, hunit, hopening⟩ := List.mem_filterMap.1 (hentries.mem_iff.1 (List.mem_filterMap.2 ⟨_, hl, rfl⟩))
    exact ⟨unit, hunit, opening?_eq_some.1 hopening⟩
  · rw [← count_entries, hentries.count_eq]
    exact List.count_eq_one_of_mem hopenings (List.mem_filterMap.2 ⟨unit, hunit, opening?_eq_some.2 hl⟩)

/-- Nothing in the whole code jumps back. -/
theorem Flows.forward_code (h : Flows code main units) : code.Forward := by
  rw [h.parts]
  have hhalt : Forward [.halt] := forward_cons (fun l hl => nomatch hl) forward_nil
  exact forward_append (forward_append h.forward hhalt) (forward_flatten fun unit hunit => (h.isUnit unit hunit).forward)

end Code

/-- In loaded code, too, every jump leads further on. -/
theorem Image.forward_of_code {image : Image} {code : Code} (hcode : image.code = code.toArray)
    (haddress : ∀ i l, code[i]? = some (.label l) → image.addressOf? l = some i) (h : code.Forward) : image.Forward := by
  intro i x l hx hl
  obtain ⟨-, j, hlt, hj⟩ := h i x l (by rwa [get?, hcode, List.getElem?_toArray] at hx) hl
  exact ⟨j, haddress j l hj, hlt⟩

/-- In loaded code that goes forward every run that makes no call comes to an answer. -/
theorem Code.Forward.exists_answer {image : Image} {code : Code} (h : code.Forward) (hcode : image.code = code.toArray)
    (haddress : ∀ i l, code[i]? = some (.label l) → image.addressOf? l = some i) {m : Machine} (hm : m.image = image)
    (hcalls : ¬m.Calls) : ∃ answer m', Machine.advance code.length m = (some answer, m') := by
  have hforward := Image.forward_of_code hcode haddress h
  refine Machine.advance_of_forward (hm ▸ hforward) hcalls ?_
  rw [hm, Image.size, hcode, List.size_toArray]
  exact Nat.le_add_left _ _

/-- Generated code is a main part and units. -/
theorem exists_flows {p : Program} {bindings : Bindings} {frameBase : Int64} {code : Code}
    (h : p.generate bindings frameBase = .ok code) : ∃ main units, code.Flows main units := by
  have hclosed := closed_of_generate h
  unfold Program.generate at h
  split at h
  · cases hmain : (p.mainCode bindings.resolutions frameBase).run .start with
    | error e =>
      rw [hmain] at h
      cases h
    | ok r =>
      obtain ⟨whole, g⟩ := r
      rw [hmain] at h
      cases h
      obtain ⟨units, hunits, main, rfl, hpart⟩ := Generator.yields_mainCode _ whole g hmain
      have hunits : g.units = units := hunits
      rw [hunits] at hclosed ⊢
      exact ⟨main, units, hpart.flows hclosed⟩
  · cases h

/-- **In generated code control only goes forward, but for calls.** It can be loaded, it consists of a main part and of
units that are entered through their own labels, and a run of it that makes no call ends. -/
theorem flows_of_generate {p : Program} {bindings : Bindings} {frameBase : Int64} {code : Code}
    (h : p.generate bindings frameBase = .ok code) : ∃ image main units,
      Image.load code = .ok image ∧ code.Flows main units ∧
      ∀ m : Machine, m.image = image → ¬ m.Calls → ∃ answer m', Machine.advance code.length m = (some answer, m') := by
  obtain ⟨image, hload, hcode, haddress⟩ := Image.load_ok (closed_of_generate h)
  obtain ⟨main, units, hflows⟩ := exists_flows h
  exact ⟨image, main, units, hload, hflows, fun m hm hcalls => hflows.forward_code.exists_answer hcode haddress hm hcalls⟩

/-- The code of `let fun f:int(x:int) x; in f(1);` goes forward. -/
theorem flows_identityCall : ∃ code, identityCall.generate (identityCall.bind .empty) 10000 = .ok code ∧
    ∃ image main units, Image.load code = .ok image ∧ code.Flows main units ∧
      ∀ m : Machine, m.image = image → ¬ m.Calls → ∃ answer m', Machine.advance code.length m = (some answer, m') := by
  have hcode : ∃ code, identityCall.generate (identityCall.bind .empty) 10000 = .ok code := ⟨_, by rfl⟩
  obtain ⟨code, hcode⟩ := hcode
  exact ⟨code, hcode, flows_of_generate hcode⟩

end Fool
