import Fool.Proofs.Binding.Reached
import Fool.Proofs.Binding.Reports
import Fool.Proofs.Tree.Chains

/-!
# Levels of nesting are never lacking

The parser counts what it opens, binding counts what is nested. Every level of the parser is at most five levels of
expressions, four for the operators and one for what they stand between, so that what was read is nested at most
`Grammar.nestingBound` levels deep, a chain of operators counting once. Binding allows more. What is left where it comes to
an expression is therefore enough for the expression (`Reached.room`), and it never gives up (`bind_within_levels`).
-/

namespace Fool

namespace Arena

variable {a : Arena} {k : Nat} {e left right : ExprRef} {op : Operator}

/-- The operands of a chain are nested less deep than the chain. -/
theorem Postordered.nested_operands (h : a.Postordered) (hx : a.expr? e = some (.binary op left right))
    (hn : a.Nested (fun _ => true) (k + 1) e) :
    a.Nested (fun _ => true) k (a.leftSpine (fun _ => true) e).1 ∧
      ∀ p ∈ (a.leftSpine (fun _ => true) e).2, a.Nested (fun _ => true) k p.2 := by
  obtain ⟨hhead, hrest⟩ := (h.nested_iff_leftSpine hx).1 hn
  obtain ⟨j, hj⟩ := h.stops (fun _ => true) e
  have hend : ∀ op left right, a.expr? (a.leftSpine (fun _ => true) e).1 ≠ some (.binary op left right) := by
    intro op left right hx
    cases hj.leftSpine_end hx
  exact ⟨(headNested_of_not_binary hend).1 hhead, hrest⟩

end Arena

namespace Binder

variable {p : Program} {names : Names} {n : Nat} {e e' : ExprRef} {b b' : Binder}

/-- The expression is nested less deep than there are levels left, by as much as binding allows more than is read. -/
def Room (a : Arena) (n : Nat) (e : ExprRef) : Prop :=
  ∃ k, a.Nested (fun _ => true) k e ∧ n = k + (maxNesting - Grammar.nestingBound)

/-- A whole expression has room. -/
theorem room_of_fill {a : Arena} {s t : Pos} (h : a.Fill Grammar.nestingBound s [e] t) : Room a maxNesting e := by
  refine ⟨Grammar.nestingBound, h.2.2 e List.mem_cons_self, ?_⟩
  have := nestingBound_le
  omega

/-- What is used up below an expression is a level of its own. -/
theorem Room.descends {a : Arena} (hpost : a.Postordered) (h : Room a (n + 1) e) (hd : Descends a names n e b e' b') :
    Room a n e' := by
  obtain ⟨k, hk, hn⟩ := h
  obtain _ | k := k
  · exact absurd hk Arena.not_nested_zero
  refine ⟨k, ?_, by omega⟩
  cases hd with
  | part hx hop hparts =>
    apply (Arena.nested_node_iff hx hop).1 hk
    rw [hparts]
    exact List.mem_append_right _ List.mem_cons_self
  | first hx => exact (hpost.nested_operands hx hk).1
  | operand hx hspine =>
    apply (hpost.nested_operands hx hk).2 (_, e')
    rw [hspine]
    exact List.mem_append_right _ List.mem_cons_self

/-- **Where binding comes to an expression of a program that was read, there is room for it.** -/
theorem Reached.room (hp : p.Placed) {task : Task} (h : Reached p names task b) :
    ∀ n e, task = .expr n e → Room p.arena n e := by
  obtain ⟨q, hrow, hfill⟩ := hp.row
  induction h with
  | global _ | inner _ _ _ => rintro _ _ ⟨⟩
  | body =>
    rintro _ _ ⟨⟩
    exact room_of_fill hfill
  | init hreached hx =>
    rintro _ _ ⟨⟩
    obtain ⟨s, t, hat, -⟩ := hreached.fresh hp
    exact room_of_fill (hat.var hx)
  | functionBody hreached he =>
    rintro _ _ ⟨⟩
    obtain ⟨s, t, hat, hblank⟩ := hreached.fresh hp
    obtain ⟨s', t', ⟨m, -, hbody⟩, -⟩ := hblank.enters hp.postordered he hat
    exact room_of_fill hbody
  | descend _ hd ih =>
    rintro _ _ ⟨⟩
    exact (ih _ _ rfl).descends hp.postordered hd

/-- So fewer levels are in use there than can be read. -/
theorem Reached.levels (hp : p.Placed) (h : Reached p names (.expr n e) b) :
    maxNesting - n < Grammar.nestingBound := by
  obtain ⟨k, hk, hn⟩ := h.room hp n e rfl
  have hpos : k ≠ 0 := by
    rintro rfl
    exact Arena.not_nested_zero hk
  have hbound : 0 < Grammar.nestingBound := by decide
  have := nestingBound_le
  omega

end Binder

/-- Nesting is not among the faults that the names of a program have. -/
theorem Program.Fault.ne_nestingTooDeep {p : Program} {names : Names} {s : Spot} {err : BindError}
    (h : p.Fault names s err) (limit : Nat) : err.cause ≠ .nestingTooDeep limit := by
  cases h with
  | reference _ _ hmisuse => cases hmisuse <;> nofun
  | declaration _ hdeclared => cases hdeclared <;> nofun

/-- **Binding has levels enough for every program that can be read.** It reports no lack of levels, whatever the names are.
Whatever it comes to, fewer levels are in use than five for each level that the parser may open, and those are fewer than
it allows. -/
theorem bind_within_levels {text : String} {names names' : Names} {p : Program}
    (h : Program.parse text names = (.ok p, names')) (ns : Names) :
    (∀ err ∈ (p.bind ns).errors, ∀ limit, err.cause ≠ .nestingTooDeep limit) ∧
      (∀ n e b, Binder.Reached p ns (.expr n e) b → Binder.maxNesting - n < 5 * Parser.maxDepth) ∧
      5 * Parser.maxDepth < Binder.maxNesting := by
  have hp := placed_of_parse h
  refine ⟨?_, fun n e b hreached => hreached.levels hp, by decide⟩
  obtain ⟨q, hrow, hfill⟩ := hp.row
  have htells : Binder.Tells _ (Binder.region p.arena ns _ _ _) _ _ :=
    Binder.tells_region hp Binder.nestingBound_le (Binder.tells_decl hp Binder.nestingBound_le _) .main hrow hfill
  obtain ⟨-, faults, hlists, herr⟩ := htells _ (Binder.stands_start p)
  have herrors : (p.bind ns).errors = faults.map Prod.snd := herr
  intro err hmem
  rw [herrors] at hmem
  obtain ⟨⟨s, err⟩, hfault, rfl⟩ := List.mem_map.1 hmem
  exact (Program.fault_iff_inside.2 ((hlists.mem s err).1 hfault)).ne_nestingTooDeep

/-- The tree of `x - !(x - !x);`. -/
def nestedDifference : Program where
  arena :=
    ⟨#[⟨.name ⟨0⟩, some ⟨1, 1, 0⟩⟩, ⟨.name ⟨0⟩, some ⟨1, 7, 6⟩⟩, ⟨.name ⟨0⟩, some ⟨1, 12, 11⟩⟩,
        ⟨.not ⟨2⟩, some ⟨1, 11, 10⟩⟩, ⟨.binary .sub ⟨1⟩ ⟨3⟩, some ⟨1, 9, 8⟩⟩, ⟨.not ⟨4⟩, some ⟨1, 5, 4⟩⟩,
        ⟨.binary .sub ⟨0⟩ ⟨5⟩, some ⟨1, 3, 2⟩⟩],
      #[]⟩
  declarations := []
  body := ⟨6⟩

/-- The name is reported at each of its uses, and nothing else is. -/
theorem bind_within_levels_nestedDifference :
    Program.parse "x - !(x - !x);" .empty = (.ok nestedDifference, ⟨#["x"]⟩) ∧
      (nestedDifference.bind ⟨#["x"]⟩).errors.map (·.cause) = List.replicate 3 (.unresolvedIdentifier "x") ∧
      (∀ err ∈ (nestedDifference.bind ⟨#["x"]⟩).errors, ∀ limit, err.cause ≠ .nestingTooDeep limit) ∧
      ∀ n e b, Binder.Reached nestedDifference ⟨#["x"]⟩ (.expr n e) b → Binder.maxNesting - n < 320 := by
  have hparse : Program.parse "x - !(x - !x);" .empty = (.ok nestedDifference, ⟨#["x"]⟩) := by decide +kernel
  obtain ⟨herrors, hlevels, -⟩ := bind_within_levels hparse ⟨#["x"]⟩
  exact ⟨hparse, by decide +kernel, herrors, hlevels⟩

end Fool
