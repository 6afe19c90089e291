import Mathlib.Data.List.Forall2
import Fool.Proofs.Codegen.Total
import Fool.Proofs.Tree.Chains

/-!
# The shape of generated code

`Coded` says what code an expression can have, form by form and up to the choice of labels; for it a chain of operators
is again a tree. `DeclCoded` says the same of declarations, whose functions have their units among those of the program.
`Makes` is what each step of code generation is shown to do; from it `generate_shape` follows, which takes the code of a
program apart.
-/

namespace Fool

/-- The arithmetic operation that an operator becomes. -/
def Operator.arith? : Operator → Option Arith
  | add => some .add
  | sub => some .sub
  | mul | and => some .mul
  | div => some .div
  | _ => none

/-- The comparison that an operator becomes; for `>=` the operands are exchanged. -/
def Operator.comparison? : Operator → Option Comparison
  | equal => some .equal
  | lessEqual | greaterEqual => some .lessEqual
  | _ => none

namespace Generator

/-! ## Code of expressions -/

/-- The code behind a left operand, from the code of the right one. -/
inductive Tail : Operator → Code → Code → Prop
  | arith {op : Operator} {o : Arith} {right : Code} : op.arith? = some o → Tail op right (right ++ [.arith o])
  | comparison {op : Operator} {on : Comparison} {right : Code} {onTrue done : String} : op.comparison? = some on →
      Tail op right (right ++ .branch on onTrue :: Code.truth onTrue done)
  | or {right : Code} {onTrue done : String} :
      Tail .or right ([.push 1, .branch .equal onTrue] ++ right ++ .push 1 :: .branch .equal onTrue ::
        Code.truth onTrue done)

/-- The code that gives the address of the frame or object that holds what is meant. -/
def frameOf (frameBase : Int64) (inClass : Bool) (r : Resolution) : Code :=
  if inClass ∧ r.entry.depth = 0 then [.push frameBase] else .load .fp :: List.replicate r.hops .loadWord

/-- The code that gives the access link and the entry of a function that is called. -/
def targetOf (frameBase : Int64) (inClass : Bool) (r : Resolution) : Code :=
  match r.entry.kind with
  | .func => frameOf frameBase inClass r ++ Code.duplicate ++ Code.loadAt r.entry.offset
  | .method => frameOf frameBase inClass r ++ Code.duplicate ++ [.loadWord] ++ Code.loadAt r.entry.offset
  | _ => .push frameBase :: frameOf frameBase inClass r ++ Code.loadAt r.entry.offset

variable (a : Arena) (t : Resolutions) (frameBase : Int64) (inClass : Bool)

/-- **The code that an expression can have.** -/
inductive Coded : ExprRef → Code → Prop
  | int {e : ExprRef} {v : Int64} : a.expr? e = some (.int v) → Coded e [.push v]
  | bool {e : ExprRef} {b : Bool} : a.expr? e = some (.bool b) → Coded e [.push (if b then 1 else 0)]
  | null {e : ExprRef} : a.expr? e = some .null → Coded e [.push (-1)]
  | binary {e left right : ExprRef} {op : Operator} {first second tail : Code} :
      a.expr? e = some (.binary op left right) → op ≠ .greaterEqual → Coded left first → Coded right second →
      Tail op second tail → Coded e (first ++ tail)
  | greaterEqual {e left right : ExprRef} {first second tail : Code} :
      a.expr? e = some (.binary .greaterEqual left right) → Coded right first → Coded left second →
      Tail .greaterEqual second tail → Coded e (first ++ tail)
  | not {e operand : ExprRef} {code : Code} {onTrue done : String} : a.expr? e = some (.not operand) →
      Coded operand code → Coded e (code ++ .push 0 :: .branch .equal onTrue :: Code.truth onTrue done)
  | ifElse {e condition onTrue onFalse : ExprRef} {test yes no : Code} {first done : String} :
      a.expr? e = some (.ifElse condition onTrue onFalse) → Coded condition test → Coded onTrue yes →
      Coded onFalse no →
      Coded e (test ++ [.push 1, .branch .equal first] ++ no ++ [.jump done, .label first] ++ yes ++ [.label done])
  | print {e operand : ExprRef} {code : Code} : a.expr? e = some (.print operand) → Coded operand code →
      Coded e (code ++ Code.duplicate ++ [.print])
  | name {e : ExprRef} {name : Symbol} {r : Resolution} : a.expr? e = some (.name name) → t.get? e = some r →
      Coded e (frameOf frameBase inClass r ++ Code.loadAt r.entry.offset)
  | call {e : ExprRef} {function : Symbol} {args : List ExprRef} {codes : List Code} {r : Resolution} :
      a.expr? e = some (.call function args) → t.get? e = some r → List.Forall₂ Coded args.reverse codes →
      Coded e (.load .fp :: codes.flatten ++ targetOf frameBase inClass r ++ [.jumpSub])
  | methodCall {e : ExprRef} {receiver method : Symbol} {args : List ExprRef} {codes : List Code} {r : Resolution}
      {m : Entry} : a.expr? e = some (.methodCall receiver method args) → t.get? e = some r → r.method = some m →
      List.Forall₂ Coded args.reverse codes →
      Coded e (.load .fp :: codes.flatten ++ frameOf frameBase inClass r ++ Code.loadAt r.entry.offset ++
        Code.duplicate ++ [.loadWord] ++ Code.loadAt m.offset ++ [.jumpSub])
  | new {e : ExprRef} {name : Symbol} {args : List ExprRef} {codes : List Code} {r : Resolution} :
      a.expr? e = some (.new name args) → t.get? e = some r → List.Forall₂ Coded args codes →
      Coded e (codes.flatten ++ (List.replicate args.length Code.pushToHeap).flatten ++
        [.push (frameBase + Int64.ofInt r.entry.offset), .loadWord, .load .hp, .storeWord, .load .hp] ++
        Code.bumpHeap)

theorem Coded.lt_size {a : Arena} {t : Resolutions} {frameBase : Int64} {inClass : Bool} {e : ExprRef} {code : Code}
    (h : Coded a t frameBase inClass e code) : e.index < a.nodes.size := by
  cases h <;> exact Arena.lt_size_of_expr? ‹_›

/-! ## Code of declarations -/

/-- The unit of a function from the code of its parts. -/
def unitCode (entry : String) (f : Function) (locals : List Code) (body : Code) : Code :=
  [.label entry, .copyFp, .load .ra] ++ locals.flatten ++ body ++ [.store .tm]
    ++ List.replicate f.locals.length .pop ++ [.store .ra, .pop] ++ List.replicate f.params.length .pop
    ++ [.store .fp, .load .tm, .load .ra, .jumpSub]

/-- A function whose unit begins with the label is among the units. -/
def FunctionCoded (localCoded : DeclRef → Code → Prop) (units : List Code) (f : Function) (entry : String) : Prop :=
  ∃ locals body, List.Forall₂ localCoded f.locals locals ∧ Coded a t frameBase inClass f.body body ∧
    unitCode entry f locals body ∈ units

/-- **The code that a declaration can have,** its local declarations nested at most `n - 1` levels deep. -/
def DeclCoded (units : List Code) : Nat → Bool → DeclRef → Code → Prop
  | 0, _, _, _ => False
  | n + 1, inClass, d, code =>
    match a.decl? d with
    | none => False
    | some (.varDecl v) => Coded a t frameBase inClass v.init code
    | some (.funDecl f) => ∃ entry, FunctionCoded a t frameBase inClass (DeclCoded units n inClass) units f entry ∧
        code = [.pushLabel entry]
    | some (.classDecl c) => ∃ entries,
        List.Forall₂ (FunctionCoded a t frameBase true (DeclCoded units n true) units) c.methods entries ∧
        code = .load .hp :: (entries.map fun l => .pushLabel l :: Code.pushToHeap).flatten

variable {a t frameBase inClass}

/-! ## What the steps make -/

section Makes

variable {α β : Type} {P : α → Prop} {Q : β → Prop} {units : List Code} {b b' b'' : Bool}

/-- The step adds to the units; if what there is then is among `units`, its answer has the property. Before and
behind it, `b` and `b'` say whether code generation is inside a class. -/
def Makes (units : List Code) (b b' : Bool) (m : GenM α) (P : α → Prop) : Prop :=
  ∀ g x g', m g = .ok (x, g') → g.units ⊆ g'.units ∧ (g.inClass = b → g'.inClass = b' ∧ (g'.units ⊆ units → P x))

theorem makes_pure {x : α} (h : P x) : Makes units b b (pure x) P := by
  intro g x' g' hrun
  cases hrun
  exact ⟨List.Subset.refl _, fun hb => ⟨hb, fun _ => h⟩⟩

theorem makes_throw (e : CodegenError) : Makes units b b' (throw e : GenM α) P := by
  intro g x g' hrun
  cases hrun

/-- The first step of two, when both give an answer. -/
theorem exists_of_bind {m : GenM α} {f : α → GenM β} {g : Generator} {r : β × Generator}
    (hrun : (m >>= f) g = .ok r) : ∃ x g', m g = .ok (x, g') ∧ f x g' = .ok r := by
  have heq : (m >>= f) g = (m g >>= fun r => f r.1 r.2) := rfl
  rw [heq] at hrun
  cases hg : m g with
  | error e =>
    rw [hg] at hrun
    cases hrun
  | ok q =>
    rw [hg] at hrun
    exact ⟨q.1, q.2, rfl, hrun⟩

theorem makes_bind {m : GenM α} {f : α → GenM β} (hm : Makes units b b' m P)
    (hf : ∀ x, Makes units b' b'' (f x) fun y => P x → Q y) : Makes units b b'' (m >>= f) Q := by
  intro g y g'' hrun
  obtain ⟨x, g', hg, hrun⟩ := exists_of_bind hrun
  obtain ⟨hsub, hx⟩ := hm g x g' hg
  obtain ⟨hsub', hy⟩ := hf x g' y g'' hrun
  refine ⟨List.Subset.trans hsub hsub', fun hb => ?_⟩
  obtain ⟨hb', hp⟩ := hx hb
  obtain ⟨hb'', hq⟩ := hy hb'
  exact ⟨hb'', fun hunits => hq hunits (hp (List.Subset.trans hsub' hunits))⟩

theorem Makes.imp {m : GenM α} {P' : α → Prop} (h : Makes units b b' m P) (himp : ∀ x, P x → P' x) :
    Makes units b b' m P' := fun g x g' hrun =>
  ⟨(h g x g' hrun).1, fun hb => ⟨((h g x g' hrun).2 hb).1, fun hunits => himp x (((h g x g' hrun).2 hb).2 hunits)⟩⟩

theorem makes_mapM {R : α → β → Prop} {f : α → GenM β} : ∀ xs : List α, (∀ x ∈ xs, Makes units b b (f x) (R x)) →
    Makes units b b (xs.mapM f) (List.Forall₂ R xs)
  | [], _ => makes_pure .nil
  | x :: xs, h => by
    rw [List.mapM_cons]
    refine makes_bind (h x List.mem_cons_self) fun y => ?_
    refine makes_bind (makes_mapM xs fun x' hx' => h x' (List.mem_cons_of_mem _ hx')) fun ys => ?_
    exact makes_pure fun hys hy => .cons hy hys

theorem makes_freshLabel : Makes units b b freshLabel fun _ => True := by
  intro g x g' hrun
  cases hrun
  exact ⟨List.Subset.refl _, fun hb => ⟨hb, fun _ => trivial⟩⟩

theorem makes_freshFunction : Makes units b b freshFunction fun _ => True := by
  intro g x g' hrun
  cases hrun
  exact ⟨List.Subset.refl _, fun hb => ⟨hb, fun _ => trivial⟩⟩

theorem makes_addUnit (unit : Code) : Makes units b b (addUnit unit) fun _ => unit ∈ units := by
  intro g x g' hrun
  cases hrun
  refine ⟨List.subset_append_left _ _, fun hb => ⟨hb, fun hunits => hunits ?_⟩⟩
  exact List.mem_append_right _ List.mem_cons_self

theorem makes_setInClass (b' : Bool) : Makes units b b' (setInClass b') fun _ => True := by
  intro g x g' hrun
  cases hrun
  exact ⟨List.Subset.refl _, fun _ => ⟨rfl, fun _ => trivial⟩⟩

theorem makes_get : Makes units b b (get : GenM Generator) fun g => g.inClass = b := by
  intro g x g' hrun
  cases hrun
  exact ⟨List.Subset.refl _, fun hb => ⟨hb, fun _ => hb⟩⟩

end Makes

/-! ## Expressions -/

section

variable {units : List Code} {e : ExprRef}

theorem makes_operatorTail (op : Operator) (right : Code) :
    Makes units inClass inClass (operatorTail op right) (Tail op right) := by
  unfold operatorTail
  cases op with
  | add | sub | mul | and | div => exact makes_pure (.arith rfl)
  | equal | lessEqual | greaterEqual =>
    refine makes_bind makes_freshLabel fun onTrue => makes_bind makes_freshLabel fun done => makes_pure fun _ _ => ?_
    rw [List.append_assoc]
    exact .comparison rfl
  | or =>
    refine makes_bind makes_freshLabel fun onTrue => makes_bind makes_freshLabel fun done => makes_pure fun _ _ => ?_
    rw [List.append_assoc]
    exact .or

theorem makes_resolution : Makes units inClass inClass (resolution t e) fun r => t.get? e = some r := by
  unfold resolution
  split
  · rename_i r hr
    exact makes_pure hr
  · exact makes_throw _

theorem makes_frameCode (r : Resolution) :
    Makes units inClass inClass (frameCode frameBase r) (· = frameOf frameBase inClass r) := by
  refine makes_bind makes_get fun g => ?_
  by_cases hclass : g.inClass ∧ r.entry.depth = 0
  · rw [if_pos hclass]
    refine makes_pure fun hg => ?_
    rw [frameOf, if_pos (hg ▸ hclass)]
  · rw [if_neg hclass]
    refine makes_pure fun hg => ?_
    rw [frameOf, if_neg (hg ▸ hclass)]

theorem makes_targetCode (r : Resolution) :
    Makes units inClass inClass (targetCode frameBase r) (· = targetOf frameBase inClass r) := by
  refine makes_bind (makes_frameCode r) fun frame => ?_
  unfold targetOf
  cases r.entry.kind <;> exact makes_pure fun hframe => by subst hframe; rfl

/-- The code of the end of a chain: of a `>=`, or of an operand. -/
def HeadCoded (a : Arena) (t : Resolutions) (frameBase : Int64) (inClass : Bool) (e : ExprRef) (code : Code) : Prop :=
  match a.expr? e with
  | some (.binary _ left right) => ∃ first second tail, Coded a t frameBase inClass right first ∧
      Coded a t frameBase inClass left second ∧ Tail .greaterEqual second tail ∧ code = first ++ tail
  | _ => Coded a t frameBase inClass e code

theorem headCoded_binary {op : Operator} {left right : ExprRef} {code : Code}
    (hx : a.expr? e = some (.binary op left right)) : HeadCoded a t frameBase inClass e code ↔
      ∃ first second tail, Coded a t frameBase inClass right first ∧ Coded a t frameBase inClass left second ∧
        Tail .greaterEqual second tail ∧ code = first ++ tail := by
  unfold HeadCoded
  rw [hx]

theorem headCoded_of_not_binary {code : Code} (h : ∀ op left right, a.expr? e ≠ some (.binary op left right)) :
    HeadCoded a t frameBase inClass e code ↔ Coded a t frameBase inClass e code := by
  unfold HeadCoded
  split
  · exact absurd ‹_› (h _ _ _)
  · rfl

/-- What the walk down a chain finds is put together to the code of the chain. -/
theorem coded_of_spine {k : Nat} (hstops : a.Stops (fun op => op ≠ .greaterEqual) k e) : ∀ {head : Code}
    {tails : List Code}, HeadCoded a t frameBase inClass (a.leftSpine (fun op => op ≠ .greaterEqual) e).1 head →
    List.Forall₂ (fun (q : Operator × ExprRef) tail => ∃ right, Coded a t frameBase inClass q.2 right ∧ Tail q.1 right tail)
      (a.leftSpine (fun op => op ≠ .greaterEqual) e).2 tails →
    Coded a t frameBase inClass e (head ++ tails.flatten) := by
  induction hstops with
  | @left k e left right op hx hop hleft ih =>
    intro head tails hhead htails
    rw [hleft.leftSpine_follow hx hop] at hhead htails
    obtain ⟨front, last, hfront, hlast, rfl⟩ := forall₂_split htails
    cases hlast with
    | cons htail hnil =>
      cases hnil
      obtain ⟨right, hright, htail⟩ := htail
      rw [List.flatten_append, ← List.append_assoc, List.flatten_singleton]
      exact .binary hx (by simpa using hop) (ih hhead hfront) hright htail
  | @here e hstop =>
    intro head tails hhead htails
    rw [Arena.leftSpine_stop hstop] at hhead htails
    cases htails
    rw [List.flatten_nil, List.append_nil]
    by_cases hop : ∃ op left right, a.expr? e = some (.binary op left right)
    · obtain ⟨op, left, right, hx⟩ := hop
      obtain rfl : op = .greaterEqual := by simpa using hstop op left right hx
      obtain ⟨first, second, tail, hfirst, hsecond, htail, rfl⟩ := (headCoded_binary hx).1 hhead
      exact .greaterEqual hx hfirst hsecond htail
    · simp only [not_exists] at hop
      exact (headCoded_of_not_binary hop).1 hhead

/-- A step for operands and what it makes of each. -/
theorem makes_headCode {operand : ExprRef → GenM Code}
    (h : ∀ e, Makes units inClass inClass (operand e) (Coded a t frameBase inClass e)) (first : ExprRef)
    (hstop : ∀ op left right, a.expr? first = some (.binary op left right) → op = .greaterEqual) :
    Makes units inClass inClass (headCode a operand first) (HeadCoded a t frameBase inClass first) := by
  unfold headCode
  split
  · rename_i op left right hx
    obtain rfl := hstop op left right hx
    refine makes_bind (h left) fun second => makes_bind (h right) fun first => ?_
    rw [operatorCode, if_pos rfl]
    refine makes_bind (makes_operatorTail _ _) fun tail => makes_pure fun htail hfirst hsecond => ?_
    exact (headCoded_binary hx).2 ⟨first, second, tail, hfirst, hsecond, htail, rfl⟩
  · rename_i hx
    exact (h first).imp fun code hcode => (headCoded_of_not_binary fun op left right hop => hx op left right hop).2 hcode

theorem makes_chainCode {operand : ExprRef → GenM Code}
    (h : ∀ e, Makes units inClass inClass (operand e) (Coded a t frameBase inClass e)) {k : Nat}
    (hstops : a.Stops (fun op => op ≠ .greaterEqual) k e) :
    Makes units inClass inClass (chainCode a operand e) (Coded a t frameBase inClass e) := by
  have hstop : ∀ op left right, a.expr? (a.leftSpine (fun op => op ≠ .greaterEqual) e).1 = some (.binary op left right) →
      op = .greaterEqual := fun op left right hx => by simpa using hstops.leftSpine_end hx
  refine makes_bind (makes_headCode h _ hstop) fun head => ?_
  refine makes_bind (makes_mapM (R := fun (q : Operator × ExprRef) tail =>
    ∃ right, Coded a t frameBase inClass q.2 right ∧ Tail q.1 right tail) _ fun q _ => ?_) fun tails => ?_
  · refine makes_bind (h q.2) fun right => ?_
    exact (makes_operatorTail q.1 right).imp fun tail htail hright => ⟨right, hright, htail⟩
  · exact makes_pure fun htails hhead => coded_of_spine hstops hhead htails

/-- Where code is generated, every walk down the left operands ends: from an operator at which it is given up, code
generation goes on to the left operand. -/
theorem stops_of_exprCode {n : Nat} {g : Generator} {r : Code × Generator} (h : exprCode a t frameBase n e g = .ok r) :
    ∃ k, a.Stops (fun op => op ≠ .greaterEqual) k e := by
  induction n generalizing e g r with
  | zero => cases h
  | succ n ih =>
    by_cases hop : ∃ op left right, a.expr? e = some (.binary op left right)
    · obtain ⟨op, left, right, hx⟩ := hop
      rw [exprCode, hx] at h
      obtain ⟨head, g', hhead, -⟩ := exists_of_bind h
      suffices hend : ∃ k, a.Stops (fun op => op ≠ .greaterEqual) k (a.leftSpine (fun op => op ≠ .greaterEqual) e).1 from
        hend.elim fun k hend => hend.of_leftSpineFrom
      generalize (a.leftSpine (fun op => op ≠ .greaterEqual) e).1 = last at hhead ⊢
      by_cases hlast : ∃ op left right, a.expr? last = some (.binary op left right) ∧ op ≠ .greaterEqual
      · obtain ⟨op', left', right', hx', hne⟩ := hlast
        rw [headCode, hx'] at hhead
        obtain ⟨code, g'', hleft, -⟩ := exists_of_bind hhead
        obtain ⟨k, hk⟩ := ih hleft
        exact ⟨k + 1, .left hx' (by simpa using hne) hk⟩
      · refine ⟨0, .here fun op' left' right' hx' => ?_⟩
        by_contra hne
        exact hlast ⟨op', left', right', hx', by simpa using hne⟩
    · exact ⟨0, .here fun op left right hx => absurd ⟨op, left, right, hx⟩ hop⟩

/-- **Code generation gives an expression a code that it can have.** -/
theorem makes_exprCode (n : Nat) (e : ExprRef) :
    Makes units inClass inClass (exprCode a t frameBase n e) (Coded a t frameBase inClass e) := by
  induction n generalizing e with
  | zero => exact makes_throw _
  | succ n ih =>
    rw [exprCode]
    split
    · exact makes_throw _
    · exact makes_pure (.int ‹_›)
    · exact makes_pure (.bool ‹_›)
    · exact makes_pure (.null ‹_›)
    · rename_i op left right hx
      intro g x g' hrun
      have hchain : exprCode a t frameBase (n + 1) e g = .ok (x, g') := by
        rw [exprCode, hx]
        exact hrun
      obtain ⟨k, hk⟩ := stops_of_exprCode hchain
      exact makes_chainCode ih hk g x g' hrun
    · refine makes_bind makes_freshLabel fun onTrue => makes_bind makes_freshLabel fun done => makes_bind (ih _)
        fun operand => makes_pure fun hoperand _ _ => ?_
      rw [List.append_assoc]
      exact .not ‹_› hoperand
    · exact makes_bind makes_freshLabel fun first => makes_bind makes_freshLabel fun done => makes_bind (ih _)
        fun condition => makes_bind (ih _) fun onFalse => makes_bind (ih _) fun onTrue =>
        makes_pure fun htrue hfalse hcondition _ _ => .ifElse ‹_› hcondition htrue hfalse
    · exact makes_bind (ih _) fun operand => makes_pure fun hoperand => .print ‹_› hoperand
    · refine makes_bind makes_resolution fun r => makes_bind (makes_frameCode r) fun frame =>
        makes_pure fun hframe hr => ?_
      rw [hframe]
      exact .name ‹_› hr
    · refine makes_bind makes_resolution fun r => makes_bind (makes_mapM _ fun arg _ => ih arg) fun args =>
        makes_bind (makes_targetCode r) fun target => makes_pure fun htarget hargs hr => ?_
      rw [htarget]
      exact .call ‹_› hr hargs
    · refine makes_bind makes_resolution fun r => ?_
      split
      · exact makes_throw _
      · rename_i method hmethod
        refine makes_bind (makes_mapM _ fun arg _ => ih arg) fun args => makes_bind (makes_frameCode r) fun frame =>
          makes_pure fun hframe hargs hr => ?_
        rw [hframe]
        exact .methodCall ‹_› hr hmethod hargs
    · refine makes_bind makes_resolution fun r => makes_bind (makes_mapM _ fun arg _ => ih arg) fun args =>
        makes_pure fun hargs hr => ?_
      rw [List.map_const']
      exact .new ‹_› hr hargs

/-! ## Declarations -/

theorem makes_addFunction {localCode : DeclRef → GenM Code} {localCoded : DeclRef → Code → Prop}
    (f : Function) (h : ∀ d ∈ f.locals, Makes units inClass inClass (localCode d) (localCoded d)) :
    Makes units inClass inClass (addFunction a t frameBase localCode f)
      (FunctionCoded a t frameBase inClass localCoded units f) := by
  refine makes_bind makes_freshFunction fun entry => ?_
  have hunit : Makes units inClass inClass (functionUnit a t frameBase localCode entry f) fun unit =>
      ∃ locals body, List.Forall₂ localCoded f.locals locals ∧ Coded a t frameBase inClass f.body body ∧
        unit = unitCode entry f locals body := by
    refine makes_bind (makes_mapM _ h) fun locals => ?_
    refine makes_bind (makes_exprCode maxNesting f.body) fun body => makes_pure fun hbody hlocals => ?_
    refine ⟨locals, body, hlocals, hbody, ?_⟩
    rw [unitCode, List.map_const', List.map_const']
  refine makes_bind hunit fun unit => makes_bind (makes_addUnit unit) fun _ => makes_pure fun hmem hshape _ => ?_
  obtain ⟨locals, body, hlocals, hbody, rfl⟩ := hshape
  exact ⟨locals, body, hlocals, hbody, hmem⟩

end

/-! ## Declarations and programs -/

section

variable {p : Program} {names : Names} {Γ : Context} {units : List Code}

/-- **Code generation gives a declaration a code that it can have.** A class is read outside of all classes, since it is
declared at the outermost level. -/
theorem makes_declCode (h : Binder.Faultless p names) (n : Nat) : ∀ {Γ : Context} {ds ds' : List DeclRef} {d : DeclRef}
    {body : ExprRef} {inClass : Bool}, p.Region Γ (ds ++ d :: ds') body → (Γ.depth = 0 → inClass = false) →
    Makes units inClass inClass (declCode p.arena t frameBase n d)
      (DeclCoded p.arena t frameBase units n inClass d) := by
  induction n with
  | zero => intro Γ ds ds' d body inClass _ _; exact makes_throw _
  | succ n ih =>
    intro Γ ds ds' d body inClass hr hout
    rw [declCode]
    cases hx : p.arena.decl? d with
    | none => exact makes_throw _
    | some x =>
      cases x with
      | varDecl v =>
        refine (makes_exprCode maxNesting v.init).imp fun code hcode => ?_
        rw [DeclCoded, hx]
        exact hcode
      | funDecl f =>
        have hr' := Program.Region.function hr hx
        have hlocals : ∀ d' ∈ f.locals, Makes units inClass inClass (declCode p.arena t frameBase n d')
            (DeclCoded p.arena t frameBase units n inClass d') := by
          intro d' hd'
          obtain ⟨ds₁, ds₂, hds⟩ := List.append_of_mem hd'
          rw [hds] at hr'
          refine ih hr' fun hdepth => ?_
          have hpos := List.length_pos_of_ne_nil hr.rooted.ne_nil
          simp only [Context.depth, Context.bind, List.length_cons, Context.length_declareAll] at hdepth
          omega
        refine makes_bind (makes_addFunction f hlocals) fun entry => makes_pure fun hentry => ?_
        rw [DeclCoded, hx]
        exact ⟨entry, hentry, rfl⟩
      | classDecl c =>
        have hdepth : Γ.depth = 0 := h.depth_eq_zero hr (List.mem_append_right _ List.mem_cons_self) hx
        obtain rfl := hout hdepth
        have hmethods : ∀ m ∈ c.methods, Makes units true true
            (addFunction p.arena t frameBase (declCode p.arena t frameBase n) m)
            (FunctionCoded p.arena t frameBase true (DeclCoded p.arena t frameBase units n true) units m) := by
          intro m hm
          obtain ⟨ms, ms', hms⟩ := List.append_of_mem hm
          have hr' := Program.Region.method hr hx hdepth hms
          refine makes_addFunction m fun d' hd' => ?_
          obtain ⟨ds₁, ds₂, hds⟩ := List.append_of_mem hd'
          rw [hds] at hr'
          refine ih hr' fun hdepth => ?_
          simp [Context.depth] at hdepth
        refine makes_bind (makes_setInClass true) fun _ => ?_
        refine makes_bind (makes_mapM _ hmethods) fun entries => ?_
        refine makes_bind (makes_setInClass false) fun _ => makes_pure fun _ hentries _ => ?_
        rw [DeclCoded, hx]
        exact ⟨entries, hentries, rfl⟩

/-- **The code of a program, taken apart:** its main part, in which the declarations and the body follow each other, and
the units of all functions. -/
theorem generate_shape (h : Binder.Faultless p names) {code : Code}
    (hcode : p.generate (p.bind names) frameBase = .ok code) : ∃ units decls body,
    code = (if p.declarations.isEmpty then [] else [.push 0]) ++ decls.flatten ++ body ++ [.halt] ++ units.flatten ∧
    List.Forall₂ (DeclCoded p.arena (p.bind names).resolutions frameBase units (p.arena.decls.size + 1) false)
      p.declarations decls ∧
    Coded p.arena (p.bind names).resolutions frameBase false p.body body := by
  have hmain : ∀ units, Makes units false false (p.mainCode (p.bind names).resolutions frameBase) fun main =>
      ∃ decls body, main = (if p.declarations.isEmpty then [] else [.push 0]) ++ decls.flatten ++ body ++ [.halt] ∧
        List.Forall₂ (DeclCoded p.arena (p.bind names).resolutions frameBase units (p.arena.decls.size + 1) false)
          p.declarations decls ∧
        Coded p.arena (p.bind names).resolutions frameBase false p.body body := by
    intro units
    have hdecls : ∀ d ∈ p.declarations, Makes units false false
        (declCode p.arena (p.bind names).resolutions frameBase (p.arena.decls.size + 1) d)
        (DeclCoded p.arena (p.bind names).resolutions frameBase units (p.arena.decls.size + 1) false d) := by
      intro d hd
      obtain ⟨ds, ds', hds⟩ := List.append_of_mem hd
      have hr := Program.Region.main (p := p)
      rw [hds] at hr
      exact makes_declCode h _ hr fun _ => rfl
    refine makes_bind (makes_mapM _ hdecls) fun decls => ?_
    refine makes_bind (makes_exprCode maxNesting p.body) fun body => makes_pure fun hbody hall => ?_
    exact ⟨decls, body, rfl, hall, hbody⟩
  rw [generate_eq h.errors] at hcode
  cases hrun : p.mainCode (p.bind names).resolutions frameBase .start with
  | error e =>
    rw [hrun] at hcode
    cases hcode
  | ok r =>
    obtain ⟨main, g⟩ := r
    rw [hrun] at hcode
    cases hcode
    obtain ⟨-, hshape⟩ := hmain g.units Generator.start main g hrun
    obtain ⟨-, hparts⟩ := hshape rfl
    obtain ⟨decls, body, rfl, hall, hbody⟩ := hparts (List.Subset.refl _)
    exact ⟨g.units, decls, body, rfl, hall, hbody⟩

end

end Generator

end Fool
