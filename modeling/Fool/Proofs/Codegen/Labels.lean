import Mathlib.Data.List.Nodup
import Mathlib.Data.List.Perm.Basic
import Fool.Codegen.Decls

/-!
# The labels of generated code

Every label of generated code is defined once, and every label that is used is defined (`closed_of_generate`). A step
of code generation defines labels that the supply had not handed out before it: with `Emits old m code`, the step `m`
makes of the code `old` the code `code a`, where `a` is its answer; what it adds, together with the units that it
finishes, defines fresh labels and uses no others. `emits_bind` puts two steps in a row, `emits_bind_of` two of which
the first only adds to the code before it.
-/

namespace Fool

/-! ## Labels of code -/

namespace Code

/-- The labels that code defines, in order. -/
def defined (code : Code) : List String := code.filterMap (·.defined?)

/-- The labels that code uses, in order. -/
def targets (code : Code) : List String := code.filterMap (·.target?)

@[simp] theorem defined_nil : defined [] = [] := rfl

@[simp] theorem targets_nil : targets [] = [] := rfl

@[simp] theorem defined_cons (i : Instruction) (code : Code) :
    defined (i :: code) = i.defined?.toList ++ defined code := by
  cases h : i.defined? <;> simp [defined, h]

@[simp] theorem targets_cons (i : Instruction) (code : Code) :
    targets (i :: code) = i.target?.toList ++ targets code := by
  cases h : i.target? <;> simp [targets, h]

@[simp] theorem defined_append (left right : Code) : defined (left ++ right) = defined left ++ defined right :=
  List.filterMap_append

@[simp] theorem targets_append (left right : Code) : targets (left ++ right) = targets left ++ targets right :=
  List.filterMap_append

theorem defined_flatten (pieces : List Code) : defined pieces.flatten = (pieces.map defined).flatten := by
  induction pieces with
  | nil => rfl
  | cons piece pieces ih => simp [ih]

theorem targets_flatten (pieces : List Code) : targets pieces.flatten = (pieces.map targets).flatten := by
  induction pieces with
  | nil => rfl
  | cons piece pieces ih => simp [ih]

/-- No label is defined twice, none is used without being defined, and all are of the two kinds of the supply. -/
structure Closed (code : Code) : Prop where
  nodup : code.defined.Nodup
  used : ∀ l ∈ code.targets, l ∈ code.defined
  named : ∀ l ∈ code.defined, ∃ n, l = LabelSupply.labelText n ∨ l = LabelSupply.functionText n

end Code

/-! ## Fresh labels -/

namespace LabelSupply

variable {s s' s'' : LabelSupply} {l : String} {m n : Nat}

/-- What `toString` writes tells numbers apart. -/
theorem toString_injective (h : toString m = toString n) : m = n := by
  have hdigits := congrArg (fun t : String => Nat.ofDigitChars 10 t.toList 0) h
  simpa [Nat.toString_eq_ofList_toDigits] using hdigits

theorem labelText_injective (h : labelText m = labelText n) : m = n := by
  have hlist := congrArg String.toList h
  simp only [labelText, String.toList_append] at hlist
  exact toString_injective (String.toList_inj.1 (List.append_cancel_left hlist))

theorem functionText_injective (h : functionText m = functionText n) : m = n := by
  have hlist := congrArg String.toList h
  simp only [functionText, String.toList_append] at hlist
  exact toString_injective (String.toList_inj.1 (List.append_cancel_left hlist))

theorem labelText_ne_functionText : labelText m ≠ functionText n := by
  intro h
  have hhead := congrArg (fun t : String => t.toList.head?) h
  simp [labelText, functionText] at hhead

/-- The second supply has handed out whatever the first has. -/
def Before (s s' : LabelSupply) : Prop := s.labels ≤ s'.labels ∧ s.functions ≤ s'.functions

/-- The label is handed out between the first supply and the second. -/
def Between (s s' : LabelSupply) (l : String) : Prop :=
  (∃ n, s.labels ≤ n ∧ n < s'.labels ∧ l = labelText n) ∨
    ∃ n, s.functions ≤ n ∧ n < s'.functions ∧ l = functionText n

theorem Before.refl (s : LabelSupply) : Before s s := ⟨Nat.le_refl _, Nat.le_refl _⟩

theorem Before.trans (h : Before s s') (h' : Before s' s'') : Before s s'' :=
  ⟨Nat.le_trans h.1 h'.1, Nat.le_trans h.2 h'.2⟩

theorem Between.mono_left (hs : Before s s') (h : Between s' s'' l) : Between s s'' l := by
  rcases h with ⟨n, hn, hn', rfl⟩ | ⟨n, hn, hn', rfl⟩
  · exact Or.inl ⟨n, Nat.le_trans hs.1 hn, hn', rfl⟩
  · exact Or.inr ⟨n, Nat.le_trans hs.2 hn, hn', rfl⟩

theorem Between.mono_right (hs : Before s' s'') (h : Between s s' l) : Between s s'' l := by
  rcases h with ⟨n, hn, hn', rfl⟩ | ⟨n, hn, hn', rfl⟩
  · exact Or.inl ⟨n, hn, Nat.lt_of_lt_of_le hn' hs.1, rfl⟩
  · exact Or.inr ⟨n, hn, Nat.lt_of_lt_of_le hn' hs.2, rfl⟩

/-- A label is handed out once. -/
theorem Between.disjoint (h : Between s s' l) (h' : Between s' s'' l) : False := by
  rcases h with ⟨n, hn, hn', rfl⟩ | ⟨n, hn, hn', rfl⟩ <;> rcases h' with ⟨k, hk, hk', h⟩ | ⟨k, hk, hk', h⟩
  · have := labelText_injective h
    omega
  · exact labelText_ne_functionText h
  · exact labelText_ne_functionText h.symm
  · have := functionText_injective h
    omega

end LabelSupply

/-! ## What a step of code generation adds -/

namespace Generator

open LabelSupply

variable {α β : Type} {old : Code}

/-- The step makes of the code `old` the code `code a`: what that and the units that are finished define beyond `old`
are different labels that the step has taken from the supply, and what they use beyond `old` they define. -/
def Emits (old : Code) (m : GenM α) (code : α → Code) : Prop :=
  ∀ g a g', m g = .ok (a, g') → ∃ (new : List Code) (fresh : List String),
    g'.units = g.units ++ new ∧ Before g.supply g'.supply ∧ fresh.Nodup ∧
    (∀ l ∈ fresh, Between g.supply g'.supply l) ∧
    (code a ++ new.flatten).defined.Perm (old.defined ++ fresh) ∧
    ∀ l ∈ (code a ++ new.flatten).targets, l ∈ old.targets ∨ l ∈ (code a ++ new.flatten).defined

/-- A step that only answers. The code before it may be rearranged and given instructions that define no label. -/
theorem emits_pure {code : α → Code} (a : α) (hdefined : ∀ l, (code a).defined.count l = old.defined.count l)
    (htargets : ∀ l ∈ (code a).targets, l ∈ old.targets ∨ l ∈ (code a).defined) : Emits old (pure a) code := by
  intro g a' g' h
  cases h
  have hperm : (code a).defined.Perm old.defined := List.perm_iff_count.2 hdefined
  exact ⟨[], [], by simp, Before.refl _, List.nodup_nil, by simp, by simpa using hperm, by simpa using htargets⟩

/-- Two steps in a row. -/
theorem emits_bind {m : GenM α} {f : α → GenM β} {middle : α → Code} {code : β → Code} (hm : Emits old m middle)
    (hf : ∀ a, Emits (middle a) (f a) code) : Emits old (m >>= f) code := by
  intro g b g'' h
  have hrun : (m >>= f) g = (m g >>= fun r => f r.1 r.2) := rfl
  rw [hrun] at h
  cases hm' : m g with
  | error e =>
    rw [hm'] at h
    cases h
  | ok r =>
    obtain ⟨a, g'⟩ := r
    rw [hm'] at h
    obtain ⟨new, fresh, hunits, hbefore, hnodup, hfresh, hdefined, htargets⟩ := hm g a g' hm'
    obtain ⟨new', fresh', hunits', hbefore', hnodup', hfresh', hdefined', htargets'⟩ := hf a g' b g'' h
    have hperm : (code b ++ (new ++ new').flatten).defined.Perm (old.defined ++ (fresh ++ fresh')) := by
      rw [List.perm_iff_count] at hdefined hdefined' ⊢
      intro l
      have h1 := hdefined l
      have h2 := hdefined' l
      simp only [Code.defined_append, List.flatten_append, List.count_append] at h1 h2 ⊢
      omega
    refine ⟨new ++ new', fresh ++ fresh', by rw [hunits', hunits, List.append_assoc], hbefore.trans hbefore', ?_, ?_,
      hperm, ?_⟩
    · refine List.Nodup.append hnodup hnodup' fun l hl hl' => (hfresh l hl).disjoint (hfresh' l hl')
    · intro l hl
      rcases List.mem_append.1 hl with hl | hl
      · exact (hfresh l hl).mono_right hbefore'
      · exact (hfresh' l hl).mono_left hbefore
    · -- a label that one of the steps uses and defines is defined by both together
      have hsub : ∀ l, l ∈ (middle a ++ new.flatten).defined ∨ l ∈ (code b ++ new'.flatten).defined →
          l ∈ (code b ++ (new ++ new').flatten).defined := by
        intro l hl
        have h1 := hdefined'.mem_iff (a := l)
        simp only [Code.defined_append, List.flatten_append, List.mem_append] at h1 hl ⊢
        tauto
      intro l hl
      have h1 := htargets l
      have h2 := htargets' l
      have h3 := hsub l
      simp only [Code.targets_append, List.flatten_append, List.mem_append] at h1 h2 hl
      tauto

/-- The code before a step may begin with other code. -/
theorem Emits.behind {m : GenM α} {code : α → Code} (h : Emits old m code) (frame : Code) :
    Emits (frame ++ old) m fun a => frame ++ code a := by
  intro g a g' hm
  obtain ⟨new, fresh, hunits, hbefore, hnodup, hfresh, hdefined, htargets⟩ := h g a g' hm
  refine ⟨new, fresh, hunits, hbefore, hnodup, hfresh, ?_, ?_⟩
  · simpa only [List.append_assoc, Code.defined_append] using hdefined.append_left frame.defined
  · intro l hl
    have := htargets l
    simp only [Code.targets_append, Code.defined_append, List.mem_append] at this hl ⊢
    tauto

/-- A step that adds to the code before it. -/
theorem emits_bind_of {m : GenM α} {f : α → GenM β} {added : α → Code} {code : β → Code} (hm : Emits [] m added)
    (hf : ∀ a, Emits (old ++ added a) (f a) code) : Emits old (m >>= f) code := by
  have h := hm.behind old
  rw [List.append_nil] at h
  exact emits_bind h hf

/-- The order of the code before a step does not matter. -/
theorem Emits.swap {left right : Code} {m : GenM α} {code : α → Code} (h : Emits (left ++ right) m code) :
    Emits (right ++ left) m code := by
  rw [← pure_bind () fun _ => m]
  refine emits_bind (emits_pure () ?_ ?_) fun _ => h
  · intro l
    simp only [Code.defined_append, List.count_append]
    omega
  · intro l hl
    simp only [Code.targets_append, List.mem_append] at hl ⊢
    tauto

theorem emits_get : Emits old (get : GenM Generator) fun _ => old := by
  intro g a g' h
  cases h
  exact ⟨[], [], by simp, Before.refl _, List.nodup_nil, by simp, by simp, fun l hl => Or.inl (by simpa using hl)⟩

theorem emits_setInClass (inClass : Bool) : Emits old (setInClass inClass) fun _ => old := by
  intro g a g' h
  cases h
  exact ⟨[], [], by simp, Before.refl _, List.nodup_nil, by simp, by simp, fun l hl => Or.inl (by simpa using hl)⟩

/-- A step that fails. -/
theorem emits_throw {code : α → Code} (e : CodegenError) : Emits old (throw e : GenM α) code := by
  intro g a g' h
  cases h

/-- A new label may be defined once behind. -/
theorem emits_freshLabel : Emits [] freshLabel fun l => [.label l] := by
  intro g l g' h
  cases h
  refine ⟨[], [labelText g.supply.labels], by simp, ⟨Nat.le_succ _, Nat.le_refl _⟩, by simp, ?_, ?_, ?_⟩
  · intro l hl
    exact Or.inl ⟨g.supply.labels, Nat.le_refl _, Nat.lt_succ_self _, List.mem_singleton.1 hl⟩
  · simp [Instruction.defined?]
  · simp [Instruction.target?]

/-- A new entry may be defined once behind, and used wherever. -/
theorem emits_freshFunction : Emits [] freshFunction fun l => [.pushLabel l, .label l] := by
  intro g l g' h
  cases h
  refine ⟨[], [functionText g.supply.functions], by simp, ⟨Nat.le_refl _, Nat.le_succ _⟩, by simp, ?_, ?_, ?_⟩
  · intro l hl
    exact Or.inr ⟨g.supply.functions, Nat.le_refl _, Nat.lt_succ_self _, List.mem_singleton.1 hl⟩
  · simp [Instruction.defined?]
  · simp [Instruction.target?, Instruction.defined?]

/-- A unit takes up the code before it. -/
theorem emits_addUnit (unit : Code) : Emits unit (addUnit unit) fun _ => [] := by
  intro g a g' h
  cases h
  exact ⟨[unit], [], rfl, Before.refl _, List.nodup_nil, by simp, by simp, fun l hl => Or.inl (by simpa using hl)⟩

/-- A step for each element of a list. -/
theorem emits_mapM {f : α → GenM β} {code : β → Code} (h : ∀ x, Emits [] (f x) code) :
    ∀ xs : List α, Emits [] (xs.mapM f) fun ys => (ys.map code).flatten
  | [] => emits_pure [] (by simp) (by simp)
  | x :: xs => by
    rw [List.mapM_cons]
    refine emits_bind_of (h x) fun y => emits_bind_of (emits_mapM h xs) fun ys => emits_pure _ ?_ ?_
    · simp
    · intro l hl
      exact Or.inl (by simpa using hl)

/-! ## Pieces of code -/

end Generator

namespace Code

@[simp] theorem defined_duplicate : defined duplicate = [] := rfl

@[simp] theorem targets_duplicate : targets duplicate = [] := rfl

@[simp] theorem defined_loadAt (offset : Int) : defined (loadAt offset) = [] := rfl

@[simp] theorem targets_loadAt (offset : Int) : targets (loadAt offset) = [] := rfl

@[simp] theorem defined_bumpHeap : defined bumpHeap = [] := rfl

@[simp] theorem targets_bumpHeap : targets bumpHeap = [] := rfl

@[simp] theorem defined_pushToHeap : defined pushToHeap = [] := rfl

@[simp] theorem targets_pushToHeap : targets pushToHeap = [] := rfl

/-- The same instruction many times. -/
theorem defined_replicate {i : Instruction} (h : i.defined? = none) (n : Nat) : defined (List.replicate n i) = [] := by
  induction n with
  | zero => rfl
  | succ n ih => rw [List.replicate_succ, defined_cons, h, ih]; rfl

theorem targets_replicate {i : Instruction} (h : i.target? = none) (n : Nat) : targets (List.replicate n i) = [] := by
  induction n with
  | zero => rfl
  | succ n ih => rw [List.replicate_succ, targets_cons, h, ih]; rfl

end Code

namespace Generator

open LabelSupply

variable {α β : Type} {old : Code}

/-! ## Expressions -/

theorem emits_operatorTail (op : Operator) (right : Code) : Emits right (operatorTail op right) id := by
  unfold operatorTail
  cases op with
  | equal | lessEqual | greaterEqual | or =>
    refine emits_bind_of emits_freshLabel fun onTrue => emits_bind_of emits_freshLabel fun done => emits_pure _ ?_ ?_
    · intro l
      simp [Code.truth, Instruction.defined?, List.count_cons]
      try omega
    · intro l
      simp [Code.truth, Instruction.defined?, Instruction.target?]
      tauto
  | _ =>
    refine emits_pure _ ?_ ?_
    · simp [Instruction.defined?]
    · intro l hl
      simpa [Instruction.defined?, Instruction.target?] using Or.inl hl

theorem emits_operatorCode (op : Operator) (left right : Code) :
    Emits (left ++ right) (operatorCode op left right) id := by
  unfold operatorCode
  split
  · refine emits_bind ((emits_operatorTail op left).behind right).swap fun tail => emits_pure _ ?_ ?_
    · simp
    · simpa using fun l hl => Or.inl hl
  · refine emits_bind ((emits_operatorTail op right).behind left) fun tail => emits_pure _ ?_ ?_
    · simp
    · simpa using fun l hl => Or.inl hl

variable {a : Arena} {t : Resolutions} {frameBase : Int64} {e : ExprRef}

theorem emits_frameCode (r : Resolution) : Emits [] (frameCode frameBase r) id := by
  refine emits_bind emits_get fun g => ?_
  split
  · exact emits_pure _ (by simp [Instruction.defined?]) (by simp [Instruction.target?])
  · have hdefined := Code.defined_replicate (i := Instruction.loadWord) rfl r.hops
    have htargets := Code.targets_replicate (i := Instruction.loadWord) rfl r.hops
    exact emits_pure _ (by simp [hdefined, Instruction.defined?]) (by simp [htargets, Instruction.target?])

theorem emits_targetCode (r : Resolution) : Emits [] (targetCode frameBase r) id := by
  refine emits_bind (emits_frameCode r) fun frame => ?_
  split <;> refine emits_pure _ ?_ ?_ <;> intro l <;> simp [Instruction.defined?, Instruction.target?] <;> tauto

theorem emits_resolution : Emits [] (resolution t e) fun _ => [] := by
  unfold resolution
  split
  · exact emits_pure _ (by simp) (by simp)
  · exact emits_throw _

theorem emits_headCode {operand : ExprRef → GenM Code} (h : ∀ e, Emits [] (operand e) id) (e : ExprRef) :
    Emits [] (headCode a operand e) id := by
  unfold headCode
  split
  · rename_i op left right _
    exact emits_bind_of (h left) fun left => emits_bind_of (h right) fun right => emits_operatorCode op left right
  · exact h e

theorem emits_chainCode {operand : ExprRef → GenM Code} (h : ∀ e, Emits [] (operand e) id) (e : ExprRef) :
    Emits [] (chainCode a operand e) id := by
  have htail : ∀ q : Operator × ExprRef, Emits [] (do operatorTail q.1 (← operand q.2)) id :=
    fun q => emits_bind_of (h q.2) fun right => emits_operatorTail q.1 right
  refine emits_bind_of (emits_headCode h _) fun head => emits_bind_of (emits_mapM htail _) fun tails =>
    emits_pure _ ?_ ?_
  · simp
  · simpa using fun l hl => Or.inl hl

/-- **The code of an expression defines fresh labels, and uses no others.** -/
theorem emits_exprCode (n : Nat) (e : ExprRef) : Emits [] (exprCode a t frameBase n e) id := by
  induction n generalizing e with
  | zero => exact emits_throw _
  | succ n ih =>
    rw [exprCode]
    split
    · exact emits_throw _
    · exact emits_pure _ (by simp [Instruction.defined?]) (by simp [Instruction.target?])
    · exact emits_pure _ (by simp [Instruction.defined?]) (by simp [Instruction.target?])
    · exact emits_pure _ (by simp [Instruction.defined?]) (by simp [Instruction.target?])
    · exact emits_chainCode ih e
    · refine emits_bind_of emits_freshLabel fun onTrue => emits_bind_of emits_freshLabel fun done =>
        emits_bind_of (ih _) fun operand => emits_pure _ ?_ ?_
      · intro l
        simp [Code.truth, Instruction.defined?, List.count_cons]
        omega
      · intro l
        simp [Code.truth, Instruction.defined?, Instruction.target?]
        tauto
    · refine emits_bind_of emits_freshLabel fun first => emits_bind_of emits_freshLabel fun done =>
        emits_bind_of (ih _) fun condition => emits_bind_of (ih _) fun onFalse => emits_bind_of (ih _) fun onTrue =>
        emits_pure _ ?_ ?_
      · intro l
        simp [Instruction.defined?, List.count_cons]
        omega
      · intro l
        simp [Instruction.defined?, Instruction.target?]
        tauto
    · refine emits_bind_of (ih _) fun operand => emits_pure _ ?_ ?_
      · simp [Instruction.defined?]
      · simpa [Instruction.target?] using fun l hl => Or.inl hl
    · refine emits_bind_of emits_resolution fun r => emits_bind_of (emits_frameCode r) fun frame => emits_pure _ ?_ ?_
      · simp
      · simpa using fun l hl => Or.inl hl
    · rename_i args _
      refine emits_bind_of emits_resolution fun r => emits_bind_of (emits_mapM ih args.reverse) fun args =>
        emits_bind_of (emits_targetCode r) fun target => emits_pure _ ?_ ?_
      · simp [Instruction.defined?]
      · simpa [Instruction.target?] using fun l hl => Or.inl hl
    · rename_i args _
      refine emits_bind_of emits_resolution fun r => ?_
      split
      · exact emits_throw _
      · refine emits_bind_of (emits_mapM ih args.reverse) fun args => emits_bind_of (emits_frameCode r) fun frame =>
          emits_pure _ ?_ ?_
        · simp [Instruction.defined?]
        · simpa [Instruction.target?] using fun l hl => Or.inl hl
    · rename_i args _
      have hdefined : Code.defined (List.replicate args.length Code.pushToHeap).flatten = [] := by
        simp [Code.defined_flatten]
      have htargets : Code.targets (List.replicate args.length Code.pushToHeap).flatten = [] := by
        simp [Code.targets_flatten]
      refine emits_bind_of emits_resolution fun r => emits_bind_of (emits_mapM ih args) fun values =>
        emits_pure _ ?_ ?_
      · simp [Instruction.defined?, hdefined]
      · simpa [Instruction.target?, htargets] using fun l hl => Or.inl hl

/-! ## Declarations -/

theorem emits_wholeCode (e : ExprRef) : Emits [] (wholeCode a t frameBase e) id := emits_exprCode maxNesting e

theorem emits_functionUnit {localCode : DeclRef → GenM Code} (h : ∀ d, Emits [] (localCode d) id) (entry : String)
    (f : Function) : Emits [.label entry] (functionUnit a t frameBase localCode entry f) id := by
  have hdefined := Code.defined_replicate (i := Instruction.pop) rfl
  have htargets := Code.targets_replicate (i := Instruction.pop) rfl
  refine emits_bind_of (emits_mapM h f.locals) fun locals => emits_bind_of (emits_wholeCode f.body) fun body =>
    emits_pure _ ?_ ?_
  · intro l
    simp [Instruction.defined?, hdefined]
  · intro l
    simp [Instruction.target?, Instruction.defined?, htargets]
    tauto

theorem emits_addFunction {localCode : DeclRef → GenM Code} (h : ∀ d, Emits [] (localCode d) id) (f : Function) :
    Emits [] (addFunction a t frameBase localCode f) fun entry => [.pushLabel entry] := by
  refine emits_bind_of emits_freshFunction fun entry => ?_
  refine emits_bind ((emits_functionUnit h entry f).behind [.pushLabel entry]) fun unit => ?_
  refine emits_bind ((emits_addUnit unit).behind [.pushLabel entry]) fun _ => emits_pure _ ?_ ?_
  · simp
  · simp [Instruction.target?]

theorem emits_methodTable {localCode : DeclRef → GenM Code} (h : ∀ d, Emits [] (localCode d) id) (c : Class) :
    Emits [] (methodTable a t frameBase localCode c) id := by
  refine emits_bind (emits_setInClass true) fun _ => ?_
  refine emits_bind (emits_mapM (emits_addFunction h) c.methods) fun entries => ?_
  refine emits_bind (emits_setInClass false) fun _ => emits_pure _ ?_ ?_
  · intro l
    simp [Code.defined_flatten, Instruction.defined?, Function.comp_def]
  · intro l hl
    refine Or.inl ?_
    simpa [Code.targets_flatten, Instruction.target?, Function.comp_def] using hl

/-- **The code of a declaration defines fresh labels, and uses no others.** -/
theorem emits_declCode (n : Nat) (d : DeclRef) : Emits [] (declCode a t frameBase n d) id := by
  induction n generalizing d with
  | zero => exact emits_throw _
  | succ n ih =>
    rw [declCode]
    split
    · exact emits_throw _
    · exact emits_wholeCode _
    · refine emits_bind_of (emits_addFunction ih _) fun entry => emits_pure _ ?_ ?_
      · simp [Instruction.defined?]
      · simp [Instruction.target?]
    · exact emits_methodTable ih _

theorem emits_mainCode {p : Program} : Emits [] (p.mainCode t frameBase) id := by
  refine emits_bind_of (emits_mapM (emits_declCode _) p.declarations) fun decls =>
    emits_bind_of (emits_wholeCode p.body) fun body => emits_pure _ ?_ ?_
  · intro l
    cases p.declarations.isEmpty <;> simp [Instruction.defined?]
  · intro l
    cases p.declarations.isEmpty <;> simp [Instruction.target?, Instruction.defined?] <;> tauto

end Generator

open Generator

/-- **In the code of a program no label is defined twice, and none is used without being defined.** -/
theorem closed_of_generate {p : Program} {bindings : Bindings} {frameBase : Int64} {code : Code}
    (h : p.generate bindings frameBase = .ok code) : code.Closed := by
  unfold Program.generate at h
  by_cases herrors : bindings.errors.isEmpty
  · rw [if_pos herrors] at h
    cases hmain : (p.mainCode bindings.resolutions frameBase).run .start with
    | error e =>
      rw [hmain] at h
      cases h
    | ok r =>
      obtain ⟨main, g⟩ := r
      rw [hmain] at h
      cases h
      obtain ⟨new, fresh, hunits, -, hnodup, hfresh, hdefined, htargets⟩ := emits_mainCode _ main g hmain
      have hunits : g.units = new := hunits
      have hdefined : (main ++ new.flatten).defined.Perm fresh := by simpa using hdefined
      rw [hunits]
      refine ⟨hdefined.nodup_iff.2 hnodup, fun l hl => ?_, fun l hl => ?_⟩
      · exact (htargets l hl).resolve_left (by simp)
      · rcases hfresh l (hdefined.mem_iff.1 hl) with ⟨n, -, -, h⟩ | ⟨n, -, -, h⟩
        · exact ⟨n, Or.inl h⟩
        · exact ⟨n, Or.inr h⟩
  · rw [if_neg herrors] at h
    cases h

end Fool
