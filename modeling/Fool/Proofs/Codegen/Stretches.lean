import Mathlib.Data.List.Forall2
import Fool.Proofs.Binding.Frame
import Fool.Proofs.Codegen.Pieces
import Fool.Proofs.Codegen.Shape

/-!
# Where code makes objects

The code of an expression that makes no call is one stretch of code, and the stretches of its parts lie in it. `Occupies`
says which stretch from an address on an expression can have, and at which places in it objects are made: each is an
`Allocation`. Whatever code an expression without calls can have, it occupies such a stretch from every address on
(`Coded.occupies`).
-/

namespace Fool

/-! ## Stretches of code -/

/-- The place at which the code of a `new` stands: its first address, the addresses behind each of the arguments, and that
behind the whole code. -/
structure Allocation where
  start : Nat
  ends : List Nat
  stop : Nat

/-- The number of cells that are allocated: one for each argument, and one for the address of the table. -/
def Allocation.size (n : Allocation) : Nat := n.ends.length + 1

/-- All start between the addresses. -/
def Allocation.Between (lo hi : Nat) (ns : List Allocation) : Prop := ∀ n ∈ ns, lo ≤ n.start ∧ n.start < hi

theorem Allocation.Between.mono {lo hi lo' hi' : Nat} {ns : List Allocation} (h : Between lo hi ns) (hlo : lo' ≤ lo)
    (hhi : hi ≤ hi') : Between lo' hi' ns := fun n hn => by
  have := h n hn
  omega

theorem Allocation.Between.append {lo hi : Nat} {ns ns' : List Allocation} (h : Between lo hi ns)
    (h' : Between lo hi ns') : Between lo hi (ns ++ ns') := fun n hn => (List.mem_append.1 hn).elim (h n) (h' n)

/-- A stretch of code, and the places in it at which objects are made. -/
structure Stretch where
  start : Nat
  code : Code
  allocations : List Allocation

namespace Stretch

/-- The address behind the stretch. -/
def stop (x : Stretch) : Nat := x.start + x.code.length

/-- From the address on the stretches follow each other. -/
def Adjacent : Nat → List Stretch → Prop
  | _, [] => True
  | start, x :: xs => x.start = start ∧ Adjacent x.stop xs

/-- Stretches that follow each other take up as much room as their code. -/
theorem Adjacent.bounds {x : Stretch} {xs : List Stretch} {start : Nat} (h : Adjacent start xs) (hx : x ∈ xs) :
    start ≤ x.start ∧ x.stop ≤ start + (xs.map code).flatten.length := by
  induction xs generalizing start with
  | nil => cases hx
  | cons y ys ih =>
    obtain ⟨rfl, hrest⟩ := h
    have hstop : y.stop = y.start + y.code.length := rfl
    rw [List.map_cons, List.flatten_cons, List.length_append]
    rcases List.mem_cons.1 hx with rfl | hx
    · omega
    · have := ih hrest hx
      omega

/-- Each of them lies where it is said to lie. -/
theorem Adjacent.placed {image : Image} {x : Stretch} {xs : List Stretch} {start : Nat} (h : Adjacent start xs)
    (hp : image.Placed start (xs.map code).flatten) (hx : x ∈ xs) : image.Placed x.start x.code := by
  induction xs generalizing start with
  | nil => cases hx
  | cons y ys ih =>
    obtain ⟨rfl, hrest⟩ := h
    rw [List.map_cons, List.flatten_cons] at hp
    obtain ⟨hfirst, hothers⟩ := Image.placed_append.1 hp
    rcases List.mem_cons.1 hx with rfl | hx
    · exact hfirst
    · exact ih hrest hothers hx

end Stretch

/-! ## Expressions without calls -/

/-- The expression is a call. -/
def Expr.IsCall : Expr → Prop
  | call .. | methodCall .. => True
  | _ => False

instance : DecidablePred Expr.IsCall
  | .call .. | .methodCall .. => isTrue trivial
  | .int _ | .bool _ | .null | .binary .. | .not _ | .ifElse .. | .print _ | .name _ | .new .. => isFalse id

/-- Neither the expression nor any that is reached from it is a call. -/
def Arena.CallFree (a : Arena) (e : ExprRef) : Prop := ∀ e' x, a.Below e e' → a.expr? e' = some x → ¬x.IsCall

theorem Arena.CallFree.part {a : Arena} {e part : ExprRef} {x : Expr} (h : a.CallFree e) (hx : a.expr? e = some x)
    (hp : part ∈ x.parts) : a.CallFree part := fun e' y hbelow => h e' y (.part hx hp hbelow)

/-- In a tree it is enough to look at what is on the walk. -/
theorem Arena.Postordered.callFree {a : Arena} {e : ExprRef} (h : a.Postordered)
    (hwalk : ∀ e' ∈ a.walk e, ∀ x ∈ a.expr? e', ¬x.IsCall) : a.CallFree e := by
  have hmem : ∀ {w e'}, a.Below w e' → w ∈ a.walk e → e' ∈ a.walk e := by
    intro w e' hbelow
    induction hbelow with
    | self => exact id
    | part hx hp _ ih => exact fun hw => ih (h.part_mem_walk hw hx hp)
  exact fun e' x hbelow hx => hwalk e' (hmem hbelow (a.mem_walk_self e)) x hx

/-- The number of instructions between the operands of an operator. -/
def Operator.lead : Operator → Nat
  | or => 2
  | _ => 0

namespace Generator

variable (a : Arena) (t : Resolutions) (frameBase : Int64) (inClass : Bool)

/-- **The stretch that an expression without calls can have.** -/
inductive Occupies : ExprRef → Stretch → Prop
  | int {e : ExprRef} {v : Int64} {start : Nat} : a.expr? e = some (.int v) → Occupies e ⟨start, [.push v], []⟩
  | bool {e : ExprRef} {b : Bool} {start : Nat} : a.expr? e = some (.bool b) →
      Occupies e ⟨start, [.push (if b then 1 else 0)], []⟩
  | null {e : ExprRef} {start : Nat} : a.expr? e = some .null → Occupies e ⟨start, [.push (-1)], []⟩
  | binary {e left right : ExprRef} {op : Operator} {x y : Stretch} {tail : Code} :
      a.expr? e = some (.binary op left right) → op ≠ .greaterEqual → Occupies left x → Occupies right y →
      y.start = x.stop + op.lead → Tail op y.code tail →
      Occupies e ⟨x.start, x.code ++ tail, x.allocations ++ y.allocations⟩
  | greaterEqual {e left right : ExprRef} {x y : Stretch} {tail : Code} :
      a.expr? e = some (.binary .greaterEqual left right) → Occupies right x → Occupies left y → y.start = x.stop →
      Tail .greaterEqual y.code tail → Occupies e ⟨x.start, x.code ++ tail, x.allocations ++ y.allocations⟩
  | not {e operand : ExprRef} {x : Stretch} {onTrue done : String} : a.expr? e = some (.not operand) →
      Occupies operand x →
      Occupies e ⟨x.start, x.code ++ .push 0 :: .branch .equal onTrue :: Code.truth onTrue done, x.allocations⟩
  | ifElse {e condition onTrue onFalse : ExprRef} {x y z : Stretch} {first done : String} :
      a.expr? e = some (.ifElse condition onTrue onFalse) → Occupies condition x → Occupies onFalse y →
      Occupies onTrue z → y.start = x.stop + 2 → z.start = y.stop + 2 →
      Occupies e ⟨x.start, x.code ++ [.push 1, .branch .equal first] ++ y.code ++ [.jump done, .label first] ++ z.code ++
        [.label done], x.allocations ++ y.allocations ++ z.allocations⟩
  | print {e operand : ExprRef} {x : Stretch} : a.expr? e = some (.print operand) → Occupies operand x →
      Occupies e ⟨x.start, x.code ++ Code.duplicate ++ [.print], x.allocations⟩
  | name {e : ExprRef} {name : Symbol} {r : Resolution} {start : Nat} : a.expr? e = some (.name name) →
      t.get? e = some r → Occupies e ⟨start, frameOf frameBase inClass r ++ Code.loadAt r.entry.offset, []⟩
  | new {e : ExprRef} {name : Symbol} {args : List ExprRef} {r : Resolution} {start : Nat} {xs : List Stretch}
      {code : Code} : a.expr? e = some (.new name args) → t.get? e = some r → xs.length = args.length →
      (∀ q ∈ args.zip xs, Occupies q.1 q.2) → Stretch.Adjacent start xs →
      code = (xs.map Stretch.code).flatten ++ Code.object args.length (frameBase + Int64.ofInt r.entry.offset) →
      Occupies e ⟨start, code,
        ⟨start, xs.map Stretch.stop, start + code.length⟩ :: (xs.map Stretch.allocations).flatten⟩

variable {a t frameBase inClass} {e : ExprRef} {op : Operator} {code right tail : Code} {x : Stretch} {xs : List Stretch}

theorem Tail.length_lt (h : Tail op right tail) : op.lead + right.length < tail.length := by
  cases h with
  | @arith _ o _ ho =>
    have hlead : op.lead = 0 := by cases op <;> first | rfl | cases ho
    simp [hlead]
  | @comparison _ on _ _ _ hon =>
    have hlead : op.lead = 0 := by cases op <;> first | rfl | cases hon
    simp [hlead]
  | or =>
    simp [Operator.lead, Code.truth]
    omega

/-! ## Every code is a stretch -/

/-- From each address on the code is a stretch of the expression. -/
def Spreads (a : Arena) (t : Resolutions) (frameBase : Int64) (inClass : Bool) (e : ExprRef) (code : Code) : Prop :=
  ∀ start, ∃ x, Occupies a t frameBase inClass e x ∧ x.start = start ∧ x.code = code

/-- The codes of several expressions are stretches that follow each other. -/
theorem exists_adjacent {args : List ExprRef} {codes : List Code}
    (h : List.Forall₂ (Spreads a t frameBase inClass) args codes) (start : Nat) : ∃ xs : List Stretch,
      xs.length = args.length ∧ (∀ q ∈ args.zip xs, Occupies a t frameBase inClass q.1 q.2) ∧
        Stretch.Adjacent start xs ∧ xs.map Stretch.code = codes := by
  induction h generalizing start with
  | nil => exact ⟨[], rfl, nofun, trivial, rfl⟩
  | cons harg _ ih =>
    obtain ⟨x, hx, hstart, rfl⟩ := harg start
    obtain ⟨xs, hlength, hxs, hadjacent, rfl⟩ := ih x.stop
    refine ⟨x :: xs, congrArg (· + 1) hlength, fun q hq => ?_, ⟨hstart, hadjacent⟩, rfl⟩
    rw [List.zip_cons_cons] at hq
    rcases List.mem_cons.1 hq with rfl | hq
    · exact hx
    · exact hxs q hq

/-- **Whatever code an expression without calls can have, it is a stretch of code** from every address on. The induction is
on the length of the code: an arena need not be a tree, but the code of a part is a part of the code. -/
theorem Coded.occupies (h : Coded a t frameBase inClass e code) (hfree : a.CallFree e) :
    Spreads a t frameBase inClass e code := by
  induction hn : code.length using Nat.strongRecOn generalizing e code with
  | _ n ih =>
    subst hn
    intro start
    have hpart : ∀ {part : ExprRef} {code' : Code} {x : Expr}, a.expr? e = some x → part ∈ x.parts →
        Coded a t frameBase inClass part code' → code'.length < code.length → Spreads a t frameBase inClass part code' :=
      fun hx hp hcode hlt => ih _ hlt hcode (hfree.part hx hp) rfl
    cases h with
    | int hx => exact ⟨_, .int hx, rfl, rfl⟩
    | bool hx => exact ⟨_, .bool hx, rfl, rfl⟩
    | null hx => exact ⟨_, .null hx, rfl, rfl⟩
    | @binary _ left right op first second tail hx hne hfirst hsecond htail =>
      have hlt := htail.length_lt
      obtain ⟨x, hleft, rfl, rfl⟩ := hpart hx (by simp [Expr.parts]) hfirst (by rw [List.length_append]; omega) start
      obtain ⟨y, hright, hstart, rfl⟩ :=
        hpart hx (by simp [Expr.parts]) hsecond (by rw [List.length_append]; omega) (x.stop + op.lead)
      exact ⟨_, .binary hx hne hleft hright hstart htail, rfl, rfl⟩
    | @greaterEqual _ left right first second tail hx hfirst hsecond htail =>
      have hlt := htail.length_lt
      obtain ⟨x, hleft, rfl, rfl⟩ := hpart hx (by simp [Expr.parts]) hfirst (by rw [List.length_append]; omega) start
      obtain ⟨y, hright, hstart, rfl⟩ :=
        hpart hx (by simp [Expr.parts]) hsecond (by rw [List.length_append]; omega) x.stop
      exact ⟨_, .greaterEqual hx hleft hright hstart htail, rfl, rfl⟩
    | not hx hcode =>
      obtain ⟨x, hoperand, rfl, rfl⟩ := hpart hx (by simp [Expr.parts]) hcode (by simp) start
      exact ⟨_, .not hx hoperand, rfl, rfl⟩
    | ifElse hx htest hyes hno =>
      obtain ⟨x, hx', rfl, rfl⟩ := hpart hx (by simp [Expr.parts]) htest (by simp) start
      obtain ⟨y, hy, hystart, rfl⟩ := hpart hx (by simp [Expr.parts]) hno (by simp; omega) (x.stop + 2)
      obtain ⟨z, hz, hzstart, rfl⟩ := hpart hx (by simp [Expr.parts]) hyes (by simp; omega) (y.stop + 2)
      exact ⟨_, .ifElse hx hx' hy hz hystart hzstart, rfl, rfl⟩
    | print hx hcode =>
      obtain ⟨x, hoperand, rfl, rfl⟩ := hpart hx (by simp [Expr.parts]) hcode (by simp) start
      exact ⟨_, .print hx hoperand, rfl, rfl⟩
    | name hx hget => exact ⟨_, .name hx hget, rfl, rfl⟩
    | call hx => exact (hfree e _ .self hx trivial).elim
    | methodCall hx => exact (hfree e _ .self hx trivial).elim
    | @new _ name args codes r hx hget hargs =>
      have hspreads : List.Forall₂ (Spreads a t frameBase inClass) args codes := by
        obtain ⟨hlength, hzip⟩ := List.forall₂_iff_zip.1 hargs
        refine List.forall₂_iff_zip.2 ⟨hlength, fun {arg code'} hmem => ?_⟩
        obtain ⟨harg, hcode'⟩ := List.of_mem_zip hmem
        have hle := (List.sublist_flatten_of_mem hcode').length_le
        refine hpart hx harg (hzip hmem) ?_
        simp only [List.length_append, List.length_cons]
        omega
      obtain ⟨xs, hlength, hxs, hadjacent, rfl⟩ := exists_adjacent hspreads start
      refine ⟨_, .new hx hget hlength hxs hadjacent rfl, rfl, ?_⟩
      simp [Code.object, Code.describe]

/-! ## What a stretch encloses -/

theorem exists_zip_of_mem {args : List ExprRef} (hlength : xs.length = args.length) (hx : x ∈ xs) :
    ∃ arg, (arg, x) ∈ args.zip xs := by
  obtain ⟨i, hi⟩ := List.getElem?_of_mem hx
  have hlt : i < args.length := hlength ▸ (List.getElem?_eq_some_iff.1 hi).1
  exact ⟨args[i], List.mem_of_getElem? (List.getElem?_zip_eq_some.2 ⟨List.getElem?_eq_getElem hlt, hi⟩)⟩

/-- **Objects are made in the stretch** of the expression that makes them. -/
theorem Occupies.between (h : Occupies a t frameBase inClass e x) : Allocation.Between x.start x.stop x.allocations := by
  have hstop : ∀ x : Stretch, x.stop = x.start + x.code.length := fun _ => rfl
  induction h with
  | int | bool | null | name => exact nofun
  | @binary _ _ _ op x y tail _ _ _ _ hstart htail ihx ihy =>
    have hlt := htail.length_lt
    have hx := hstop x
    have hy := hstop y
    refine (ihx.mono (Nat.le_refl _) ?_).append (ihy.mono ?_ ?_) <;> simp only [Stretch.stop, List.length_append] at * <;>
      omega
  | @greaterEqual _ _ _ x y tail _ _ _ hstart htail ihx ihy =>
    have hlt := htail.length_lt
    refine (ihx.mono (Nat.le_refl _) ?_).append (ihy.mono ?_ ?_) <;> simp only [Stretch.stop, List.length_append] at * <;>
      omega
  | @ifElse _ _ _ _ x y z _ _ _ _ _ _ hystart hzstart ihx ihy ihz =>
    refine ((ihx.mono (Nat.le_refl _) ?_).append (ihy.mono ?_ ?_)).append (ihz.mono ?_ ?_) <;>
      simp only [Stretch.stop, List.length_append, List.length_cons] at * <;> omega
  | not _ _ ih => exact ih.mono (Nat.le_refl _) (by simp [Stretch.stop])
  | print _ _ ih => exact ih.mono (Nat.le_refl _) (by simp [Stretch.stop])
  | @new _ _ args r start xs code _ _ hlength _ hadjacent hcode ih =>
    have hobject : 0 < (Code.object args.length (frameBase + Int64.ofInt r.entry.offset)).length := by
      simp only [Code.object, Code.describe, List.length_append, List.length_cons]
      omega
    rw [hcode, Stretch.stop, List.length_append]
    intro n hn
    rcases List.mem_cons.1 hn with rfl | hn
    · exact ⟨Nat.le_refl _, by dsimp only; omega⟩
    · obtain ⟨ns, hns, hn⟩ := List.mem_flatten.1 hn
      obtain ⟨x, hx, rfl⟩ := List.mem_map.1 hns
      obtain ⟨arg, hmem⟩ := exists_zip_of_mem hlength hx
      obtain ⟨hlo, hhi⟩ := hadjacent.bounds hx
      exact (ih _ hmem).mono hlo (by dsimp only; omega) n hn

end Generator

end Fool
