import Fool.Proofs.Codegen.Flow
import Fool.Proofs.Codegen.Pieces
import Fool.Proofs.Codegen.Shape
import Fool.Proofs.Machine.Apart
import Fool.Proofs.Machine.Load
import Fool.Proofs.Semantics.Correct

/-!
# Closed expressions

An expression in which nothing is named is a tree (`ClosedExpr`), whatever its numbers in the arena are
(`ClosedExpr.At`). It is evaluated without surroundings (`eval`): the only fault is a division by zero, and all there
is besides the value is what has been printed. A program that consists of such an expression alone runs as it evaluates
if memory has as many cells as the tree needs (`need`), and otherwise it may end with an overflow of the stack
(`run_closed`).

`Codes` says what code a tree can have. It is what `Generator.Coded` says of an expression that stands for the tree
(`Codes.of_coded`).
-/

namespace Fool

/-- An expression in which nothing is named. -/
inductive ClosedExpr where
  | int (value : Int64)
  | bool (value : Bool)
  | null
  | binary (op : Operator) (left right : ClosedExpr)
  | not (operand : ClosedExpr)
  | ifElse (condition onTrue onFalse : ClosedExpr)
  | print (operand : ClosedExpr)

namespace ClosedExpr

/-- The tree is that of the expression with the number. -/
def At (a : Arena) : ClosedExpr → ExprRef → Prop
  | int v, e => a.expr? e = some (.int v)
  | bool b, e => a.expr? e = some (.bool b)
  | null, e => a.expr? e = some .null
  | binary op l r, e => ∃ left right, a.expr? e = some (.binary op left right) ∧ l.At a left ∧ r.At a right
  | not t, e => ∃ operand, a.expr? e = some (.not operand) ∧ t.At a operand
  | ifElse c y n, e => ∃ condition onTrue onFalse, a.expr? e = some (.ifElse condition onTrue onFalse) ∧
      c.At a condition ∧ y.At a onTrue ∧ n.At a onFalse
  | print t, e => ∃ operand, a.expr? e = some (.print operand) ∧ t.At a operand

/-! ## Evaluation -/

/-- A step of evaluation: it prints numbers, and it may divide by zero. -/
abbrev PrintM := EStateM Unit (List Int64)

/-- A truth value as a number. -/
def truth (b : Bool) : Int64 := if b then 1 else 0

/-- What an operator makes of two numbers. -/
def operate (op : Operator) (x y : Int64) : PrintM Int64 :=
  match op with
  | .add => return x + y
  | .sub => return x - y
  | .mul | .and => return x * y
  | .div => if y = 0 then throw () else return x / y
  | .equal => return truth (x = y)
  | .lessEqual => return truth (x ≤ y)
  | .greaterEqual => return truth (y ≤ x)
  | .or => return truth (x = 1 || y = 1)

/-- The value of a closed expression. The right operand of `>=` comes first; that of `||` is left out if the left one
is 1, that of `&&` is not. -/
def eval : ClosedExpr → PrintM Int64
  | int v => return v
  | bool b => return truth b
  | null => return -1
  | binary op l r =>
    match op with
    | .or => do
      if (← l.eval) = 1 then
        return 1
      else
        return truth ((← r.eval) = 1)
    | .greaterEqual => do
      let y ← r.eval
      let x ← l.eval
      operate .greaterEqual x y
    | op => do
      let x ← l.eval
      let y ← r.eval
      operate op x y
  | not t => do return truth ((← t.eval) = 0)
  | ifElse c y n => do if (← c.eval) = 1 then y.eval else n.eval
  | print t => do
    let v ← t.eval
    modify (· ++ [v])
    return v

/-- How many cells the stack needs, that of the value included. -/
def need : ClosedExpr → Nat
  | int _ | bool _ | null => 1
  | binary op l r =>
    match op with
    | .or => max l.need (max 2 r.need)
    | .greaterEqual => max r.need (1 + l.need)
    | _ => max l.need (1 + r.need)
  | not t | print t => max t.need 2
  | ifElse c y n => max (max c.need 2) (max y.need n.need)

/-- What has been printed in the end. -/
def printed {α : Type} : EStateM.Result Unit (List Int64) α → List Int64
  | .ok _ out | .error _ out => out

variable {α β : Type} {m : PrintM α} {f : α → PrintM β} {x y : Int64} {out out' : List Int64} {v : α}

/-- Whatever has been printed stays printed. -/
def Prolongs (m : PrintM α) : Prop := ∀ out, out <+: printed (m out)

theorem prolongs_pure (v : α) : Prolongs (pure v) := fun _ => List.prefix_refl _

theorem bind_of_ok (h : m out = .ok v out') : (m >>= f) out = f v out' := by
  show EStateM.bind m f out = _
  rw [EStateM.bind, h]

theorem bind_of_error (h : m out = .error () out') : (m >>= f) out = .error () out' := by
  show EStateM.bind m f out = _
  rw [EStateM.bind, h]

theorem prolongs_bind (hm : Prolongs m) (hf : ∀ v, Prolongs (f v)) : Prolongs (m >>= f) := by
  intro out
  have h := hm out
  cases hrun : m out with
  | ok v out' =>
    rw [hrun] at h
    rw [bind_of_ok hrun]
    exact h.trans (hf v out')
  | error e out' =>
    rw [hrun] at h
    rwa [bind_of_error hrun]

theorem prolongs_operate (op : Operator) (x y : Int64) : Prolongs (operate op x y) := by
  cases op with
  | div =>
    change Prolongs (if y = 0 then throw () else return x / y)
    split
    · exact fun _ => List.prefix_refl _
    · exact prolongs_pure _
  | _ => exact prolongs_pure _

theorem prolongs_eval (t : ClosedExpr) : Prolongs t.eval := by
  induction t with
  | int | bool | null => exact prolongs_pure _
  | binary op l r ihl ihr =>
    cases op with
    | or =>
      refine prolongs_bind ihl fun x => ?_
      split
      · exact prolongs_pure _
      · exact prolongs_bind ihr fun y => prolongs_pure _
    | greaterEqual => exact prolongs_bind ihr fun y => prolongs_bind ihl fun x => prolongs_operate _ x y
    | _ => exact prolongs_bind ihl fun x => prolongs_bind ihr fun y => prolongs_operate _ x y
  | not t ih => exact prolongs_bind ih fun x => prolongs_pure _
  | ifElse c y n ihc ihy ihn =>
    refine prolongs_bind ihc fun x => ?_
    split
    · exact ihy
    · exact ihn
  | print t ih =>
    exact prolongs_bind ih fun v => prolongs_bind (fun out => List.prefix_append out [v]) fun _ => prolongs_pure _

theorem eval_binary {op : Operator} {l r : ClosedExpr} (hor : op ≠ .or) (hge : op ≠ .greaterEqual) :
    (binary op l r).eval = l.eval >>= fun x => r.eval >>= fun y => operate op x y := by
  cases op <;> first | rfl | contradiction

theorem need_binary {op : Operator} {l r : ClosedExpr} (hor : op ≠ .or) (hge : op ≠ .greaterEqual) :
    (binary op l r).need = max l.need (1 + r.need) := by
  cases op <;> first | rfl | contradiction

/-! ## Code -/

open Generator (Tail)

/-- **The code that a closed expression can have.** -/
inductive Codes : ClosedExpr → Code → Prop
  | int {v : Int64} : Codes (.int v) [.push v]
  | bool {b : Bool} : Codes (.bool b) [.push (if b then 1 else 0)]
  | null : Codes .null [.push (-1)]
  | binary {op : Operator} {l r : ClosedExpr} {first second tail : Code} : op ≠ .greaterEqual → Codes l first →
      Codes r second → Tail op second tail → Codes (.binary op l r) (first ++ tail)
  | greaterEqual {l r : ClosedExpr} {first second tail : Code} : Codes r first → Codes l second →
      Tail .greaterEqual second tail → Codes (.binary .greaterEqual l r) (first ++ tail)
  | not {t : ClosedExpr} {code : Code} {onTrue done : String} : Codes t code →
      Codes (.not t) (code ++ .push 0 :: .branch .equal onTrue :: Code.truth onTrue done)
  | ifElse {c y n : ClosedExpr} {test yes no : Code} {first done : String} : Codes c test → Codes y yes → Codes n no →
      Codes (.ifElse c y n)
        (test ++ [.push 1, .branch .equal first] ++ no ++ [.jump done, .label first] ++ yes ++ [.label done])
  | print {t : ClosedExpr} {code : Code} : Codes t code → Codes (.print t) (code ++ Code.duplicate ++ [.print])

/-- Such code neither writes to the heap nor calls. -/
theorem Codes.plain {t : ClosedExpr} {code : Code} (h : t.Codes code) : .storeWord ∉ code ∧ .jumpSub ∉ code := by
  have htail : ∀ {op : Operator} {second tail : Code}, Tail op second tail → .storeWord ∉ second ∧ .jumpSub ∉ second →
      .storeWord ∉ tail ∧ .jumpSub ∉ tail := by
    intro op second tail h hsecond
    cases h <;> simp [Code.truth, hsecond]
  induction h with
  | int | bool | null => simp
  | binary _ _ _ ht ihl ihr => simp [ihl, htail ht ihr]
  | greaterEqual _ _ ht ihr ihl => simp [ihr, htail ht ihl]
  | not _ ih => simp [Code.truth, ih]
  | ifElse _ _ _ ihc ihy ihn => simp [ihc, ihy, ihn]
  | print _ ih => simp [Code.duplicate, ih]

/-- **The code of an expression that stands for a closed one** is code that this can have. -/
theorem Codes.of_coded {a : Arena} {r : Resolutions} {frameBase : Int64} {inClass : Bool} {e : ExprRef} {t : ClosedExpr}
    {code : Code} (hcode : Generator.Coded a r frameBase inClass e code) (ht : t.At a e) : t.Codes code := by
  induction t generalizing e code with
  | int v =>
    have hx : a.expr? e = some (.int v) := ht
    cases hcode with
    | int hx' =>
      cases hx.symm.trans hx'
      exact .int
    | _ => cases hx.symm.trans ‹_›
  | bool b =>
    have hx : a.expr? e = some (.bool b) := ht
    cases hcode with
    | bool hx' =>
      cases hx.symm.trans hx'
      exact .bool
    | _ => cases hx.symm.trans ‹_›
  | null =>
    have hx : a.expr? e = some .null := ht
    cases hcode with
    | null => exact .null
    | _ => cases hx.symm.trans ‹_›
  | binary op l r ihl ihr =>
    obtain ⟨left, right, hx, hl, hr⟩ := ht
    cases hcode with
    | binary hx' hne hfirst hsecond htail =>
      cases hx.symm.trans hx'
      exact .binary hne (ihl hfirst hl) (ihr hsecond hr) htail
    | greaterEqual hx' hfirst hsecond htail =>
      cases hx.symm.trans hx'
      exact .greaterEqual (ihr hfirst hr) (ihl hsecond hl) htail
    | _ => cases hx.symm.trans ‹_›
  | not t ih =>
    obtain ⟨operand, hx, ht⟩ := ht
    cases hcode with
    | not hx' hoperand =>
      cases hx.symm.trans hx'
      exact .not (ih hoperand ht)
    | _ => cases hx.symm.trans ‹_›
  | ifElse c y n ihc ihy ihn =>
    obtain ⟨condition, onTrue, onFalse, hx, hc, hy, hn⟩ := ht
    cases hcode with
    | ifElse hx' htest hyes hno =>
      cases hx.symm.trans hx'
      exact .ifElse (ihc htest hc) (ihy hyes hy) (ihn hno hn)
    | _ => cases hx.symm.trans ‹_›
  | print t ih =>
    obtain ⟨operand, hx, ht⟩ := ht
    cases hcode with
    | print hx' hoperand =>
      cases hx.symm.trans hx'
      exact .print (ih hoperand ht)
    | _ => cases hx.symm.trans ‹_›

/-! ## What the code does -/

section Runs

variable {V : Course} {M limit limit' ip ip' : Nat} {Q : Config → Prop} {E : MachineError → List Int64 → Prop}
variable {s H out out' : List Int64} {R : Register → Int64} {t : ClosedExpr} {code : Code}

/-- The faults that an evaluation with this result may end in: if memory has less cells than the limit, an overflow of
the stack before everything has been printed; and the division by zero, if the evaluation comes to one. -/
structure Tolerates {α : Type} (E : MachineError → List Int64 → Prop) (M limit : Nat)
    (r : EStateM.Result Unit (List Int64) α) : Prop where
  overflow : M < limit → ∀ ip out, out <+: printed r → E (.stackOverflow ip) out
  division : ∀ out, r = .error () out → ∀ ip, E (.divisionByZero ip) out

section Tolerates

variable {α β : Type} {m : PrintM α} {f : α → PrintM β} {v : α}

theorem Tolerates.mono {r : EStateM.Result Unit (List Int64) α} (h : Tolerates E M limit r) (hle : limit' ≤ limit) :
    Tolerates E M limit' r := ⟨fun hM => h.overflow (Nat.lt_of_lt_of_le hM hle), h.division⟩

/-- The first step of an evaluation. -/
theorem Tolerates.first (h : Tolerates E M limit ((m >>= f) out)) (hf : ∀ v, Prolongs (f v)) :
    Tolerates E M limit (m out) := by
  cases hrun : m out with
  | ok v out' =>
    rw [bind_of_ok hrun] at h
    exact ⟨fun hM ip o ho => h.overflow hM ip o (ho.trans (hf v out')), nofun⟩
  | error e out' =>
    rw [bind_of_error hrun] at h
    exact ⟨h.overflow, fun o ho => h.division o (by cases ho; rfl)⟩

/-- What is left of an evaluation behind its first step. -/
theorem Tolerates.rest (h : Tolerates E M limit ((m >>= f) out)) (hm : m out = .ok v out') :
    Tolerates E M limit (f v out') := by rwa [bind_of_ok hm] at h

/-- At any moment the stack may overflow. -/
theorem Tolerates.now (h : Tolerates E M limit (m out)) (hm : Prolongs m) (hM : M < limit) (ip : Nat) :
    E (.stackOverflow ip) out := h.overflow hM ip out (hm out)

end Tolerates

/-- The operation of an operator. -/
theorem operate_of_arith {op : Operator} {o : Arith} (ho : op.arith? = some o) (x y : Int64) : operate op x y =
    match o.result? x y with
      | some z => return z
      | none => throw () := by
  cases op <;> cases ho <;> try rfl
  change (if y = 0 then throw () else return x / y) = _
  by_cases hy : y = 0 <;> simp [Arith.result?, hy]

theorem will_from (hip : ip' = ip) (h : Will V M Q E ⟨ip', s, H, R, out⟩) : Will V M Q E ⟨ip, s, H, R, out⟩ :=
  hip ▸ h

variable (V M H) in
/-- Where the code stands, it leaves the value of the evaluation on the stack, for which it needs so many cells. -/
def Leaves (n : Nat) (m : PrintM Int64) (code : Code) : Prop :=
  ∀ {Q : Config → Prop} {E : MachineError → List Int64 → Prop} {ip : Nat} {s out : List Int64} {R : Register → Int64},
    V.Placed ip code → R .hp = Int64.ofNat H.length → Tolerates E M (s.length + H.length + n) (m out) →
    (∀ v out' R', m out = .ok v out' → R' .hp = Int64.ofNat H.length →
      Will V M Q E ⟨ip + code.length, v :: s, H, R', out'⟩) → Will V M Q E ⟨ip, s, H, R, out⟩

variable {op : Operator} {first second tail : Code} {m m' : PrintM Int64} {n n' : Nat} {onTrue done : String}
variable (hlabels : ∀ {i : Nat} {l : String}, V.get? i = some (.label l) → V.addressOf? l = some i)

theorem leaves_push (v : Int64) : Leaves V M H 1 (pure v) [.push v] := by
  intro Q E ip s out R hp hhp ht h
  exact will_push_or hp.1 rfl hhp (fun hfull => ht.now (prolongs_pure v) (by omega) ip) fun _ => h v out R rfl hhp

include hlabels in
/-- The operator is applied to the two topmost values. -/
theorem will_apply {x y : Int64} (htail : Tail op second tail) (hor : op ≠ .or) (hge : op ≠ .greaterEqual)
    (hp : V.Placed ip tail) (hhp : R .hp = Int64.ofNat H.length) (ht : Tolerates E M limit (operate op x y out))
    (h : ∀ v, operate op x y out = .ok v out → Will V M Q E ⟨ip + tail.length, v :: s, H, R, out⟩) :
    Will V M Q E ⟨ip + second.length, y :: x :: s, H, R, out⟩ := by
  cases htail with
  | @arith _ o _ ho =>
    obtain ⟨-, hi, -⟩ := Image.placed_append.1 hp
    rw [operate_of_arith ho] at ht h
    cases hv : o.result? x y with
    | some v =>
      rw [hv] at h
      refine will_arith hi hv (low_of_eq hhp) ?_
      simpa [Nat.add_assoc] using h v rfl
    | none =>
      obtain ⟨rfl, rfl⟩ : o = .div ∧ y = 0 := by
        cases o <;> simp [Arith.result?] at hv
        exact ⟨rfl, hv⟩
      exact will_divide_by_zero hi (ht.division out rfl _)
  | @comparison _ on _ _ _ ho =>
    obtain ⟨-, hp⟩ := Image.placed_append.1 hp
    have hv : operate op x y out = .ok (if on.holds x y then 1 else 0) out := by
      cases op <;> cases ho <;> first | rfl | contradiction
    refine will_truth hlabels hp hhp ?_
    simpa [Code.truth, Nat.add_assoc] using h _ hv
  | or => exact absurd rfl hor

theorem second_prefix (htail : Tail op second tail) (hor : op ≠ .or) : second <+: tail := by
  cases htail with
  | or => exact absurd rfl hor
  | _ => exact List.prefix_append _ _

include hlabels in
/-- Two operands, one behind the other, and then the operator. -/
theorem leaves_operands (hfirst : Leaves V M H n m first) (hsecond : Leaves V M H n' m' second)
    (hm' : Prolongs m') (htail : Tail op second tail) (hor : op ≠ .or) (hge : op ≠ .greaterEqual) :
    Leaves V M H (max n (1 + n')) (m >>= fun x => m' >>= fun y => operate op x y) (first ++ tail) := by
  intro Q E ip s out R hp hhp ht h
  obtain ⟨hp₁, hp₂⟩ := Image.placed_append.1 hp
  have hprolongs : ∀ x, Prolongs (m' >>= fun y => operate op x y) := fun x =>
    prolongs_bind hm' fun y => prolongs_operate op x y
  refine hfirst hp₁ hhp ((ht.first hprolongs).mono (by omega)) fun x out₁ R₁ hx hhp₁ => ?_
  have ht₁ := ht.rest hx
  obtain ⟨more, rfl⟩ := second_prefix htail hor
  refine hsecond (Image.placed_append.1 hp₂).1 hhp₁ ((ht₁.first fun y => prolongs_operate op x y).mono ?_) ?_
  · rw [List.length_cons]
    omega
  · intro y out₂ R₂ hy hhp₂
    refine will_apply hlabels htail hor hge hp₂ hhp₂ (ht₁.rest hy) fun v hv => ?_
    rw [Nat.add_assoc, ← List.length_append]
    exact h v out₂ R₂ (by rw [bind_of_ok hx, bind_of_ok hy, hv]) hhp₂

include hlabels in
/-- The right operand of `||` is evaluated if the left one is not 1. -/
theorem leaves_or (hfirst : Leaves V M H n m first) (hsecond : Leaves V M H n' m' second) (hm' : Prolongs m') :
    Leaves V M H (max n (max 2 n'))
      (do if (← m) = 1 then return 1 else return truth ((← m') = 1))
      (first ++ ([.push 1, .branch .equal onTrue] ++ second ++
        .push 1 :: .branch .equal onTrue :: Code.truth onTrue done)) := by
  intro Q E ip s out R hp hhp ht h
  obtain ⟨hp₁, hp⟩ := Image.placed_append.1 hp
  obtain ⟨hp, hpush', htruth⟩ := Image.placed_append.1 hp
  obtain ⟨⟨hpush, hbranch, -⟩, hp₂⟩ := Image.placed_append.1 hp
  obtain ⟨-, -, -, hl, hone, hdone, -⟩ := id htruth
  have hprolongs : ∀ x : Int64, Prolongs (if x = 1 then return 1 else return truth ((← m') = 1) : PrintM Int64) := by
    intro x
    split
    · exact prolongs_pure _
    · exact prolongs_bind hm' fun y => prolongs_pure _
  refine hfirst hp₁ hhp ((ht.first hprolongs).mono (by omega)) fun x out₁ R₁ hx hhp₁ => ?_
  have ht₁ := ht.rest hx
  refine will_push_or hpush rfl hhp₁ (fun hfull => ht₁.now (hprolongs x) ?_ _) fun hroom => ?_
  · rw [List.length_cons] at hfull
    omega
  rw [List.length_cons] at hroom
  refine will_branch hbranch (hlabels hl) ?_
  have heval := bind_of_ok (f := fun x => (if x = 1 then return 1 else return truth ((← m') = 1) : PrintM Int64)) hx
  by_cases hx1 : x = 1
  · rw [if_pos (by simpa [Comparison.holds] using hx1)]
    rw [if_pos hx1] at heval
    refine will_label hl (will_push_low hone rfl (low_of_eq hhp₁) (by omega) (will_label hdone ?_))
    simpa [Code.truth, Nat.add_assoc] using h 1 out₁ R₁ heval hhp₁
  · rw [if_neg (by simpa [Comparison.holds] using hx1)]
    rw [if_neg hx1] at heval ht₁
    refine hsecond hp₂ hhp₁ ((ht₁.first fun y => prolongs_pure _).mono (by omega)) fun y out₂ R₂ hy hhp₂ => ?_
    rw [List.length_append, ← Nat.add_assoc] at hpush' htruth
    refine will_push_or hpush' rfl hhp₂ (fun hfull => (ht₁.rest hy).now (prolongs_pure _) ?_ _) fun _ => ?_
    · rw [List.length_cons] at hfull
      omega
    refine will_truth hlabels htruth hhp₂ ?_
    refine will_from ?_ (h _ out₂ R₂ (heval.trans (bind_of_ok hy)) hhp₂)
    simp [Code.truth]
    omega

include hlabels in
theorem leaves_not (hcode : Leaves V M H n m code) :
    Leaves V M H (max n 2) (do return truth ((← m) = 0))
      (code ++ .push 0 :: .branch .equal onTrue :: Code.truth onTrue done) := by
  intro Q E ip s out R hp hhp ht h
  obtain ⟨hp, hpush, htruth⟩ := Image.placed_append.1 hp
  refine hcode hp hhp ((ht.first fun x => prolongs_pure _).mono (by omega)) fun x out₁ R₁ hx hhp₁ => ?_
  refine will_push_or hpush rfl hhp₁ (fun hfull => (ht.rest hx).now (prolongs_pure _) ?_ _) fun _ => ?_
  · rw [List.length_cons] at hfull
    omega
  refine will_truth hlabels htruth hhp₁ ?_
  simpa [Code.truth, truth, Comparison.holds, Nat.add_assoc] using h _ out₁ R₁ (bind_of_ok hx) hhp₁

include hlabels in
theorem leaves_ifElse {cond yes no : PrintM Int64} {test onYes onNo : Code} {nc ny nn : Nat} {first : String}
    (htest : Leaves V M H nc cond test) (hyes : Leaves V M H ny yes onYes) (hno : Leaves V M H nn no onNo)
    (hprolongs : Prolongs yes ∧ Prolongs no) :
    Leaves V M H (max (max nc 2) (max ny nn)) (do if (← cond) = 1 then yes else no)
      (test ++ [.push 1, .branch .equal first] ++ onNo ++ [.jump done, .label first] ++ onYes ++ [.label done]) := by
  intro Q E ip s out R hp hhp ht h
  obtain ⟨hp, hdone, -⟩ := Image.placed_append.1 hp
  obtain ⟨hp, hyes'⟩ := Image.placed_append.1 hp
  obtain ⟨hp, hjump, hlabel, -⟩ := Image.placed_append.1 hp
  obtain ⟨hp, hno'⟩ := Image.placed_append.1 hp
  obtain ⟨htest', hpush, hbranch, -⟩ := Image.placed_append.1 hp
  simp only [List.length_append, List.length_cons, List.length_nil, Nat.zero_add, ← Nat.add_assoc]
    at hdone hyes' hjump hlabel hno' hpush hbranch
  have hprolongs : ∀ x : Int64, Prolongs (if x = 1 then yes else no) := by
    intro x
    split
    · exact hprolongs.1
    · exact hprolongs.2
  refine htest htest' hhp ((ht.first hprolongs).mono (by omega)) fun x out₁ R₁ hx hhp₁ => ?_
  have ht₁ := ht.rest hx
  refine will_push_or hpush rfl hhp₁ (fun hfull => ht₁.now (hprolongs x) ?_ _) fun _ => ?_
  · rw [List.length_cons] at hfull
    omega
  refine will_branch hbranch (hlabels hlabel) ?_
  have heval := bind_of_ok (f := fun x : Int64 => if x = 1 then yes else no) hx
  by_cases hx1 : x = 1
  · rw [if_pos (by simpa [Comparison.holds] using hx1)]
    rw [if_pos hx1] at heval ht₁
    refine will_label hlabel (hyes hyes' hhp₁ (ht₁.mono (by omega)) fun v out₂ R₂ hv hhp₂ => will_label hdone ?_)
    refine will_from ?_ (h v out₂ R₂ (heval.trans hv) hhp₂)
    simp
    omega
  · rw [if_neg (by simpa [Comparison.holds] using hx1)]
    rw [if_neg hx1] at heval ht₁
    refine hno hno' hhp₁ (ht₁.mono (by omega)) fun v out₂ R₂ hv hhp₂ => ?_
    refine will_jump hjump (hlabels hdone) (will_label hdone ?_)
    refine will_from ?_ (h v out₂ R₂ (heval.trans hv) hhp₂)
    simp
    omega

theorem leaves_print (hcode : Leaves V M H n m code) :
    Leaves V M H (max n 2) (do let v ← m; modify (· ++ [v]); return v) (code ++ Code.duplicate ++ [.print]) := by
  intro Q E ip s out R hp hhp ht h
  obtain ⟨hp, hprint, -⟩ := Image.placed_append.1 hp
  obtain ⟨hp, hdup⟩ := Image.placed_append.1 hp
  have hprolongs : ∀ v : Int64, Prolongs (do modify (· ++ [v]); return v) := fun v =>
    prolongs_bind (fun out => List.prefix_append out [v]) fun _ => prolongs_pure _
  refine hcode hp hhp ((ht.first hprolongs).mono (by omega)) fun v out₁ R₁ hv hhp₁ => ?_
  refine will_duplicate hdup hhp₁ (fun hfull ip => (ht.rest hv).now (hprolongs v) (by omega) ip) ?_
  rw [List.length_append, ← Nat.add_assoc] at hprint
  refine will_print hprint ?_
  simpa [Code.duplicate, Nat.add_assoc] using
    h v (out₁ ++ [v]) (Function.update R₁ .tm v) (bind_of_ok hv) (by rwa [Function.update_of_ne (by decide)])

include hlabels in
/-- **The code of a closed expression leaves its value on the stack.** -/
theorem leaves_eval (hcode : t.Codes code) : Leaves V M H t.need t.eval code := by
  induction hcode with
  | int => exact leaves_push _
  | bool => exact leaves_push _
  | null => exact leaves_push _
  | @binary op l r _ _ _ hne hfirst hsecond htail ihl ihr =>
    by_cases hor : op = .or
    · subst hor
      cases htail with
      | arith ho => cases ho
      | comparison ho => cases ho
      | or => exact leaves_or hlabels ihl ihr (prolongs_eval r)
    · rw [need_binary hor hne, eval_binary hor hne]
      exact leaves_operands hlabels ihl ihr (prolongs_eval r) htail hor hne
  | @greaterEqual l r _ second tail hfirst hsecond htail ihr ihl =>
    -- it is `<=` with its operands exchanged
    have htail' : Tail .lessEqual second tail := by
      cases htail with
      | arith ho => cases ho
      | comparison ho => exact .comparison ho
    change Leaves V M H (max r.need (1 + l.need)) (r.eval >>= fun y => l.eval >>= fun x => operate .lessEqual y x) _
    exact leaves_operands hlabels ihr ihl (prolongs_eval l) htail' (by decide) (by decide)
  | not _ ih => exact leaves_not hlabels ih
  | ifElse _ _ _ ihc ihy ihn => exact leaves_ifElse hlabels ihc ihy ihn ⟨prolongs_eval _, prolongs_eval _⟩
  | print _ ih => exact leaves_print ih

end Runs

/-! ## Programs -/

variable {p : Program} {bindings : Bindings} {frameBase : Int64} {t : ClosedExpr} {code : Code} {M : Nat}

/-- The code of a program that is a closed expression alone. -/
theorem codes_of_generate (hdecls : p.declarations = []) (ht : t.At p.arena p.body)
    (hcode : p.generate bindings frameBase = .ok code) : ∃ body, code = body ++ [.halt] ∧ t.Codes body := by
  have hexpr : Generator.Quiet (Generator.wholeCode p.arena bindings.resolutions frameBase p.body) t.Codes := by
    intro g body g' hrun
    obtain ⟨hunits, -⟩ := Generator.quiet_exprCode Generator.maxNesting p.body g body g' hrun
    obtain ⟨-, hmakes⟩ := Generator.makes_exprCode Generator.maxNesting p.body g body g' hrun
    obtain ⟨-, hcoded⟩ := hmakes rfl
    exact ⟨hunits, Codes.of_coded (hcoded (List.Subset.refl g'.units)) ht⟩
  have hmain : Generator.Quiet (p.mainCode bindings.resolutions frameBase) fun main =>
      ∃ body, main = body ++ [.halt] ∧ t.Codes body := by
    unfold Program.mainCode
    rw [hdecls]
    have hnone : Generator.Quiet (pure []) fun decls : List Code => decls = [] := Generator.quiet_pure rfl
    refine hnone.bind fun decls hdecls => hexpr.bind fun body hbody => Generator.quiet_pure ⟨body, ?_, hbody⟩
    rw [hdecls]
    rfl
  unfold Program.generate at hcode
  split at hcode
  · cases hrun : (p.mainCode bindings.resolutions frameBase).run .start with
    | error e =>
      rw [hrun] at hcode
      cases hcode
    | ok r =>
      obtain ⟨main, g⟩ := r
      rw [hrun] at hcode
      cases hcode
      obtain ⟨hunits, body, rfl, hbody⟩ := hmain Generator.start main g hrun
      have hunits : g.units = [] := hunits
      exact ⟨body, by rw [hunits]; simp, hbody⟩
  · cases hcode

/-- The answer of a run, and the machine that it leaves, are those of an evaluation. -/
def Answers (r : EStateM.Result Unit (List Int64) Int64) (answer : Machine.Answer) (m : Machine) : Prop :=
  match r with
  | .ok v out => answer = .ok (some v) ∧ m.stackDepth = 1 ∧ m.hp = 0 ∧ m.output.toList = out
  | .error _ out => (∃ ip, answer = .error (.divisionByZero ip)) ∧ m.output.toList = out

/-- Where memory has so many cells, the run of the code comes to an answer. -/
theorem answers_or {image : Image} {body : Code} {answer : Machine.Answer} {m : Machine} {n : Nat}
    (hlabels : ∀ {i : Nat} {l : String}, image.get? i = some (.label l) → image.addressOf? l = some i)
    (hcode : image.code.toList = body ++ [.halt]) (hbody : t.Codes body) (hM : M < Address.bound)
    (hadvance : Machine.advance n (Machine.start image ⟨M, none⟩) = (some answer, m)) :
    Answers (t.eval []) answer m ∨ M < t.need ∧ (∃ ip, answer = .error (.stackOverflow ip)) ∧
      m.output.toList <+: printed (t.eval []) := by
  have hwhole : image.code.toList = [] ++ (body ++ [.halt]) ++ [] := by simpa using hcode
  have hplaced : image.Placed 0 body ∧ image.Placed (0 + body.length) [.halt] :=
    Image.placed_append.1 (Image.placed_of_eq hwhole)
  let E (e : MachineError) (out : List Int64) : Prop := (∃ ip, e = .divisionByZero ip) ∧ t.eval [] = .error () out ∨
    M < t.need ∧ (∃ ip, e = .stackOverflow ip) ∧ out <+: printed (t.eval [])
  let V : Course := { View.all image with origin := Machine.start image ⟨M, none⟩, calls := fun _ => True }
  have hcomes := leaves_eval (V := V) (M := M) (H := []) hlabels hbody (E := E)
    (Q := fun c => ∃ v out R', t.eval [] = .ok v out ∧ R' .hp = 0 ∧ c = ⟨0 + body.length, [v], [], R', out⟩)
    hplaced.1 rfl ⟨fun hlt ip out hout => .inr ⟨by simpa using hlt, ⟨ip, rfl⟩, hout⟩, fun out hout ip => .inl ⟨⟨ip, rfl⟩, hout⟩⟩
    (fun v out R' hv hhp => will_done ⟨v, out, R', hv, hhp, rfl⟩) _ .refl (Machine.shows_start hM)
  have hends {k d : Nat} {m' m'' : Machine} {a : Machine.Answer} (hpasses : V.Passes (Machine.start image ⟨M, none⟩) k d m')
      (hone : Machine.advance 1 m' = (some a, m'')) : answer = a ∧ m = m'' :=
    Machine.advance_unique hadvance ((hpasses.advance 1).trans hone)
  cases hcomes with
  | @reach _ _ m' hpasses hq =>
    obtain ⟨-, c, hshows, v, out, R', hv, hhp, rfl⟩ := hq
    have hi : m'.image.get? m'.ip = some .halt := by
      rw [hshows.image, hshows.ip]
      exact hplaced.2.1
    have hvalue : m'.value? = some v := by
      rw [Machine.value?_eq_top? (by rw [hshows.size, hshows.options]), hshows.top]
      rfl
    have hone : Machine.advance 1 m' = (some (.ok (some v)), { m' with steps := m'.steps + 1 }) := by
      rw [Machine.advance, hi, ← hvalue]
      rfl
    obtain ⟨rfl, rfl⟩ := hends hpasses hone
    rw [hv]
    refine .inl ⟨rfl, ?_, (hshows.registers .hp).trans hhp, hshows.output⟩
    have hsp := hshows.sp
    have hoptions := hshows.options
    rw [List.length_singleton] at hsp
    rw [Machine.stackDepth, hoptions]
    dsimp only
    omega
  | fault hpasses _ hadvance' he =>
    obtain ⟨rfl, rfl⟩ := hends hpasses hadvance'
    rcases he with ⟨⟨ip, rfl⟩, hr⟩ | ⟨hlt, ⟨ip, rfl⟩, hout⟩
    · rw [hr]
      exact .inl ⟨⟨ip, rfl⟩, rfl⟩
    · exact .inr ⟨hlt, ⟨ip, rfl⟩, hout⟩
  | @collide k _ m' hpasses _ hc =>
    -- there is nothing that writes to the heap
    have hlike := Machine.like_advance k (Machine.start image ⟨M, none⟩)
    rw [Machine.Nested.after (fun _ _ => Course.Step.next) hpasses hc.instruction] at hlike
    obtain ⟨i, a, -, hi, -⟩ := hc
    rw [hlike.image] at hi
    have hmem : .storeWord ∈ body ++ [.halt] := by
      rw [← hcode]
      exact List.mem_of_getElem? ((Array.getElem?_toList).trans hi)
    simp [hbody.plain.1] at hmem

/-- **A closed expression is compiled exactly.** The run of its code is over after as many steps as there are
instructions. If memory has as many cells as the expression needs, the run ends as the evaluation does; otherwise it does
so, or it ends with an overflow of the stack, having printed some of the numbers. -/
theorem run_closed (hdecls : p.declarations = []) (ht : t.At p.arena p.body)
    (hcode : p.generate bindings frameBase = .ok code) (hM : M < 2 ^ 63) :
    ∃ image answer m, Image.load code = .ok image ∧
      Machine.advance code.length (Machine.start image ⟨M, none⟩) = (some answer, m) ∧
      (code.length < 2 ^ 64 → (Machine.start image ⟨M, none⟩).run = (answer, m)) ∧
      (t.need ≤ M → Answers (t.eval []) answer m) ∧
      (M < t.need → Answers (t.eval []) answer m ∨
        (∃ ip, answer = .error (.stackOverflow ip)) ∧ m.output.toList <+: printed (t.eval [])) := by
  obtain ⟨body, rfl, hbody⟩ := codes_of_generate hdecls ht hcode
  obtain ⟨main, units, hflows⟩ := exists_flows hcode
  obtain ⟨image, hload, himage, haddress⟩ := Image.load_ok (closed_of_generate hcode)
  have hget : ∀ i, image.get? i = (body ++ [.halt])[i]? := fun i => by
    rw [Image.get?, himage, List.getElem?_toArray]
  have hcalls : ¬(Machine.start image ⟨M, none⟩).Calls := by
    refine Machine.not_calls fun i hi => ?_
    have hmem := List.mem_of_getElem? ((hget i).symm.trans hi)
    simp [hbody.plain.2] at hmem
  obtain ⟨answer, m, hadvance⟩ := hflows.forward_code.exists_answer himage haddress rfl hcalls
  have hanswers := answers_or (fun hi => haddress _ _ ((hget _).symm.trans hi)) (by rw [himage]) hbody hM hadvance
  refine ⟨image, answer, m, hload, hadvance, fun hlength => ?_, fun hneed => ?_, fun _ => ?_⟩
  · have hmore := Machine.advance_add hadvance (2 ^ 64 - 1 - (body ++ [Instruction.halt]).length)
    rw [Nat.add_sub_of_le (Nat.le_sub_one_of_lt hlength)] at hmore
    rw [Machine.run, show (Machine.start image ⟨M, none⟩).lastStep - (Machine.start image ⟨M, none⟩).steps = 2 ^ 64 - 1 from
      rfl, hmore]
  · exact hanswers.resolve_right fun h => absurd hneed (Nat.not_le_of_lt h.1)
  · exact hanswers.imp_right And.right

/-- The program `print(7) / 2`. -/
def printedHalf : Program where
  arena := ⟨#[⟨.int 7, none⟩, ⟨.print ⟨0⟩, none⟩, ⟨.int 2, none⟩, ⟨.binary .div ⟨1⟩ ⟨2⟩, none⟩], #[]⟩
  declarations := []
  body := ⟨3⟩

/-- Its tree needs two cells, and gives 3. -/
theorem run_closed_printedHalf : ∃ code image answer m,
    printedHalf.generate (printedHalf.bind .empty) 2 = .ok code ∧ Image.load code = .ok image ∧
      Machine.advance code.length (Machine.start image ⟨2, none⟩) = (some answer, m) ∧ answer = .ok (some 3) ∧
      m.output.toList = [7] := by
  have hcode : ∃ code, printedHalf.generate (printedHalf.bind .empty) 2 = .ok code := ⟨_, by rfl⟩
  obtain ⟨code, hcode⟩ := hcode
  have hat : (binary .div (print (int 7)) (int 2)).At printedHalf.arena printedHalf.body :=
    ⟨⟨1⟩, ⟨2⟩, rfl, ⟨⟨0⟩, rfl, rfl⟩, rfl⟩
  obtain ⟨image, answer, m, hload, hadvance, -, hanswers, -⟩ := run_closed (M := 2) rfl hat hcode (by decide)
  obtain ⟨hanswer, -, -, hout⟩ := hanswers (by decide)
  exact ⟨code, image, answer, m, hcode, hload, hadvance, hanswer, hout⟩

end ClosedExpr

end Fool
