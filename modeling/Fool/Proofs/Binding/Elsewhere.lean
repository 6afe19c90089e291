import Fool.Proofs.Binding.Moments
import Fool.Proofs.Binding.Reached
import Fool.Proofs.Binding.Twins

/-!
# Two programs that differ inside one function

The inside of a function is bound within a scope that is closed again. Whatever it holds, the scopes, the classes and the
class that is being read are the same behind it (`Encloses`), and meanings and faults have come to its own expressions and
places only. So two programs that differ there are bound alongside each other everywhere else: `Around` says this of two
steps, and `around_decl` walks down to the function in which the programs differ.
-/

namespace Fool

namespace Binder

open Syntax

variable {R : ExprRef → ExprRef → Prop} {C : Comparison} {a a' : Arena} {names : Names} {b : Binder}
  {d n n' j : Nat} {p q p' q' : Pos} {f f' : Function} {L L' K K' : List Location}

/-! ## What is inside a function -/

/-- Whatever is reported at the places compares with whatever is reported at the others. -/
def Comparison.Ignores (C : Comparison) (L L' : List Location) : Prop :=
  ∀ es es' : List BindError, (∀ e ∈ es, ∃ l ∈ L, e.location = some l) → (∀ e ∈ es', ∃ l ∈ L', e.location = some l) →
    C.holds es es'

/-- Whether the first of two runs reports at the places only. -/
def Comparison.reported (L : List Location) : Comparison where
  holds es _ := ∀ e ∈ es, ∃ l ∈ L, e.location = some l
  nil _ he := by cases he
  append h h' e he := (List.mem_append.1 he).elim (h e) (h' e)

/-- Inside a function nothing is reported but at the places of its inside. -/
theorem region_reports (hpost : a.Postordered) (hd : d ≤ maxNesting) {t : FunctionTree} (hf : t.Is a names f)
    (hat : a.FunctionAt d (a.DeclAt d n) p f q) (hopen : 0 < b.scopes.stack.length) :
    ∃ es, (region a names n f.locals f.body b).2.errors = b.errors ++ es ∧ ∀ e ∈ es, ∃ l ∈ t.inside, e.location = some l := by
  have hsame : Twin p.nodes p.nodes t.count t.inside t.inside _ _ :=
    twin_region hpost hpost hd (twin_decl hpost hpost hd n n) (FunctionTree.Alike.refl t) hf hf hat hat
  have hcovers : (Comparison.reported t.inside).Covers t.inside t.inside := by
    intro cause l hl l' _ e he
    exact ⟨l, hl, by rw [List.mem_singleton.1 he]⟩
  have hone : OneToOne (Eq : ExprRef → ExprRef → Prop) := fun _ _ _ _ h h' => by rw [h, h']
  have hself : Matches Eq 0 b b := ⟨rfl, rfl, rfl, fun _ _ h => by rw [h], fun _ _ h => by rw [h], hopen⟩
  obtain ⟨-, -, es, _, hes, -, hin⟩ := hsame 0 hone (fun _ _ => rfl) hcovers b b hself
  exact ⟨es, hes, hin⟩

/-- **What is inside two functions leaves no trace outside,** however different it is. -/
theorem alongside_insides (hpost : a.Postordered) (hpost' : a'.Postordered) (hd : d ≤ maxNesting) {t t' : FunctionTree}
    (hf : t.Is a names f) (hf' : t'.Is a' names f') (hat : a.FunctionAt d (a.DeclAt d n) p f q)
    (hat' : a'.FunctionAt d (a'.DeclAt d n') p' f' q')
    (hR : ∀ e e', R e e' → ¬Arena.Between p e q ∧ ¬Arena.Between p' e' q') (hC : C.Ignores t.inside t'.inside) :
    Alongside R C (j + 1) (do region a names n f.locals f.body; leave) (do region a' names n' f'.locals f'.body; leave)
      j := by
  intro b b' hb
  have hopen := hb.opened
  have hdepth : b.scopes.depth ≠ 0 := by
    rw [Scopes.depth]
    omega
  have hin := region_keeps (encloses a names n) f.locals f.body b hdepth
  have hin' := region_keeps (encloses a' names n') f'.locals f'.body b' (hb.depth ▸ hdepth)
  obtain ⟨es, hes, hat_es⟩ := region_reports (b := b) hpost hd hf hat (by omega)
  obtain ⟨es', hes', hat_es'⟩ := region_reports (b := b') hpost' hd hf' hat' (by rw [hb.scopes]; omega)
  refine ⟨Subsingleton.elim _ _, ⟨?_, ?_, ?_, fun e e' he => ?_, fun e e' he => ?_, ?_⟩, es, es', hes, hes',
    hC es es' hat_es hat_es'⟩
  · exact (hin'.scopes.pop.trans (congrArg Scopes.pop hb.scopes)).trans hin.scopes.pop.symm
  · exact (hin'.classes.trans hb.classes).trans hin.classes.symm
  · exact (hin'.currentClass.trans hb.currentClass).trans hin.currentClass.symm
  · obtain ⟨hout, hout'⟩ := hR e e' he
    have hsame := hin.others e fun h => hout (hat.between hpost h)
    have hsame' := hin'.others e' fun h => hout' (hat'.between hpost' h)
    exact (hsame'.trans (hb.meanings e e' he)).trans hsame.symm
  · have hcells := hb.cells e e' he
    rw [← hin.size, ← hin'.size] at hcells
    exact hcells
  · have hlength := congrArg (fun s => s.stack.length) hin.scopes.pop
    simp only [Scopes.pop, List.length_tail] at hlength
    show j < (region a names n f.locals f.body b).2.scopes.pop.stack.length
    simp only [Scopes.pop, List.length_tail]
    omega

/-! ## Around the inside of a function -/

variable {g g' : FunctionTree} {s s' k i c c' u x : Nat} {F F' : List Location} {m m' l l' : BindM Unit}

/-- Of `c` expressions `k` stand in front of the inside of `g`, and `i` behind it; of the places `L` those in `F` are not
inside. -/
structure Cut (g : FunctionTree) (k i : Nat) (F : List Location) (c : Nat) (L : List Location) : Prop where
  count : c = k + g.count + i
  places : L.Perm (F ++ g.inside)

theorem Cut.front (h : Cut g k i F c L) : Cut g (x + k) i (K ++ F) (x + c) (K ++ L) where
  count := by
    have := h.count
    omega
  places := by
    rw [List.append_assoc]
    exact h.places.append_left K

theorem Cut.back (h : Cut g k i F c L) : Cut g k (i + x) (F ++ K) (c + x) (L ++ K) where
  count := by
    have := h.count
    omega
  places := by
    refine (h.places.append_right K).trans ?_
    rw [List.append_assoc, List.append_assoc]
    exact List.perm_append_comm.append_left F

theorem Cut.within (h : Cut g k i F c L) : Cut g k i (K ++ F) c (K ++ L) := by
  simpa only [Nat.zero_add] using h.front (K := K) (x := 0)

/-- The cut inside one of some functions. -/
theorem Cut.among {before after : List FunctionTree} {t : FunctionTree} (h : Cut g k i F t.count t.inside) :
    Cut g (FunctionTree.countAll before + k) (i + FunctionTree.countAll after)
      (FunctionTree.placesAll before ++ (t.front ++ F ++ FunctionTree.placesAll after))
      (FunctionTree.countAll (before ++ t :: after)) (FunctionTree.placesAll (before ++ t :: after)) := by
  have hwhole := (h.within (K := t.front)).back (x := FunctionTree.countAll after) (K := FunctionTree.placesAll after)
  rw [← t.places_eq] at hwhole
  rw [FunctionTree.countAll_append, FunctionTree.countAll, FunctionTree.placesAll_append, FunctionTree.placesAll]
  exact hwhole.front

/-- The `k` expressions in front and the `i` behind are related, those inside are not; and what is wrong at the places `F`
and `F'` compares. -/
structure Gap (R : ExprRef → ExprRef → Prop) (C : Comparison) (g g' : FunctionTree) (s s' k i : Nat)
    (F F' : List Location) : Prop where
  front : Pairs R s s' k
  back : Pairs R (s + k + g.count) (s' + k + g'.count) i
  missed : ∀ e e', R e e' → ¬(s + k ≤ e.index ∧ e.index < s + k + g.count) ∧
    ¬(s' + k ≤ e'.index ∧ e'.index < s' + k + g'.count)
  covers : C.Covers F F'
  ignores : C.Ignores g.inside g'.inside

/-- The two steps run alongside each other around the inside of `g` and that of `g'`; they close `u` scopes. -/
def Skips (g g' : FunctionTree) (s s' k i : Nat) (F F' : List Location) (u : Nat) (m m' : BindM Unit) : Prop :=
  ∀ ⦃R C⦄, OneToOne R → Gap R C g g' s s' k i F F' → ∀ j, Alongside R C (j + u) m m' j

theorem Twin.skips (h : Twin s s' x K K' m m') (h' : Skips g g' (s + x) (s' + x) k i F F' u l l') :
    Skips g g' s s' (x + k) i (K ++ F) (K' ++ F') u (do m; l) (do m'; l') := by
  intro R C hR hgap j
  have hcovers := hgap.covers.mono (List.subset_append_left K F) (List.subset_append_left K' F')
  refine (h (j + u) hR hgap.front.left hcovers).bind fun _ => h' hR ⟨hgap.front.right, ?_, ?_, ?_, hgap.ignores⟩ j
  · simpa only [Nat.add_assoc] using hgap.back
  · simpa only [Nat.add_assoc] using hgap.missed
  · exact hgap.covers.mono (List.subset_append_right K F) (List.subset_append_right K' F')

theorem Skips.twin (h : Skips g g' s s' k i F F' u m m')
    (h' : Twin (s + k + g.count + i) (s' + k + g'.count + i) x L L' l l') :
    Skips g g' s s' k (i + x) (F ++ L) (F' ++ L') u (do m; l) (do m'; l') := by
  intro R C hR hgap j
  have hcovers := hgap.covers.mono (List.subset_append_left F L) (List.subset_append_left F' L')
  refine (h hR ⟨hgap.front, hgap.back.left, hgap.missed, hcovers, hgap.ignores⟩ j).bind fun _ => h' j hR hgap.back.right ?_
  exact hgap.covers.mono (List.subset_append_right F L) (List.subset_append_right F' L')

/-- A step that does something more at the places `K` and `K'`. -/
theorem Skips.within (h : Skips g g' s s' k i F F' u m m')
    (hw : ∀ ⦃R C⦄, OneToOne R → C.Covers (K ++ F) (K' ++ F') → (∀ j, Alongside R C (j + u) m m' j) →
      ∀ j, Alongside R C j l l' j) : Skips g g' s s' k i (K ++ F) (K' ++ F') 0 l l' := by
  intro R C hR hgap
  have hcovers := hgap.covers.mono (List.subset_append_right K F) (List.subset_append_right K' F')
  exact hw hR hgap.covers (h hR ⟨hgap.front, hgap.back, hgap.missed, hcovers, hgap.ignores⟩)

/-- The two steps pass `c` and `c'` expressions and have the places `L` and `L'`, and run alongside each other around the
inside of `g` and that of `g'`, with `k` expressions in front of it. -/
def Around (g g' : FunctionTree) (s s' k c c' : Nat) (L L' : List Location) (u : Nat) (m m' : BindM Unit) : Prop :=
  ∃ i F F', Cut g k i F c L ∧ Cut g' k i F' c' L' ∧ Skips g g' s s' k i F F' u m m'

theorem Twin.around (h : Twin s s' x K K' m m') (h' : Around g g' (s + x) (s' + x) k c c' L L' u l l') :
    Around g g' s s' (x + k) (x + c) (x + c') (K ++ L) (K' ++ L') u (do m; l) (do m'; l') := by
  obtain ⟨i, F, F', hcut, hcut', hskips⟩ := h'
  exact ⟨i, _, _, hcut.front, hcut'.front, h.skips hskips⟩

theorem Around.twin (h : Around g g' s s' k c c' L L' u m m') (h' : Twin (s + c) (s' + c') x K K' l l') :
    Around g g' s s' k (c + x) (c' + x) (L ++ K) (L' ++ K') u (do m; l) (do m'; l') := by
  obtain ⟨i, F, F', hcut, hcut', hskips⟩ := h
  rw [hcut.count, hcut'.count, ← Nat.add_assoc, ← Nat.add_assoc, ← Nat.add_assoc, ← Nat.add_assoc] at h'
  exact ⟨i + x, _, _, hcut.back, hcut'.back, hskips.twin h'⟩

/-- A step that does something more at the places `K` and `K'`. -/
theorem Around.within (h : Around g g' s s' k c c' L L' u m m')
    (hw : ∀ ⦃R C⦄, OneToOne R → C.Covers K K' → (∀ j, Alongside R C (j + u) m m' j) → ∀ j, Alongside R C j l l' j) :
    Around g g' s s' k c c' (K ++ L) (K' ++ L') 0 l l' := by
  obtain ⟨i, F, F', hcut, hcut', hskips⟩ := h
  refine ⟨i, K ++ F, K' ++ F', hcut.within, hcut'.within, hskips.within fun R C hR hC => hw hR (hC.mono ?_ ?_)⟩
  · exact List.subset_append_left K F
  · exact List.subset_append_left K' F'

theorem Around.leave (h : Around g g' s s' k c c' L L' 0 m m') :
    Around g g' s s' k c c' L L' 1 (do m; leave) (do m'; leave) := by
  obtain ⟨i, F, F', hcut, hcut', hskips⟩ := h
  exact ⟨i, F, F', hcut, hcut', fun R C hR hgap j => (hskips hR hgap (j + 1)).bind fun _ => alongside_leave⟩

/-! ## Down to the function -/

/-- Declarations that differ inside one function are bound alongside each other around it. -/
def AroundDecls (a a' : Arena) (names : Names) (d : Nat) (g g' : FunctionTree) (n n' : Nat) : Prop :=
  ∀ (k : Nat) (t t' : DeclTree) (r r' : DeclRef) (p q p' q' : Pos), DeclTree.DiffersIn g g' k t t' → t.Stands a names r →
    t'.Stands a' names r' → a.DeclAt d n p r q → a'.DeclAt d n' p' r' q' →
    Around g g' p.nodes p'.nodes k t.count t'.count t.places t'.places 0 (decl a names n r) (decl a' names n' r')

theorem heads_cut {before before' after after' : List FunctionTree} {t t' : FunctionTree} {D : Nat → DeclTree → DeclTree → Prop}
    (hbefore : FunctionTree.AllAlike before before') (ht : FunctionTree.DiffersBy g g' D k t t')
    (hafter : FunctionTree.AllAlike after after') :
    List.Forall₂ FunctionTree.HeadAlike (before ++ t :: after) (before' ++ t' :: after') :=
  List.rel_append (heads_of_allAlike hbefore) (.cons ht.head (heads_of_allAlike hafter))

/-- The heads of methods are in front of their insides. -/
theorem fronts_cut {before after : List FunctionTree} {t : FunctionTree} (F : List Location) :
    fronts (before ++ t :: after) ⊆
      FunctionTree.placesAll before ++ (t.front ++ F ++ FunctionTree.placesAll after) := by
  intro l hl
  simp only [fronts, List.flatMap_append, List.flatMap_cons, List.mem_append] at hl ⊢
  rcases hl with hl | hl | hl
  · exact .inl (fronts_subset before hl)
  · exact .inr (.inl (.inl hl))
  · exact .inr (.inr (fronts_subset after hl))

section Down

variable (hpost : a.Postordered) (hpost' : a'.Postordered) (hd : d ≤ maxNesting)
include hpost hpost' hd

theorem around_row (h : AroundDecls a a' names d g g' n n') {before before' after after' : List DeclTree} {t t' : DeclTree}
    {rs rs' : List DeclRef} (hbefore : DeclTree.AllAlike before before') (ht : t.DiffersIn g g' k t')
    (hafter : DeclTree.AllAlike after after') (hrs : DeclTree.StandAll a names (before ++ t :: after) rs)
    (hrs' : DeclTree.StandAll a' names (before' ++ t' :: after') rs') (hrow : Arena.Row (a.DeclAt d n) p rs q)
    (hrow' : Arena.Row (a'.DeclAt d n') p' rs' q') :
    Around g g' p.nodes p'.nodes (DeclTree.countAll before + k) (DeclTree.countAll (before ++ t :: after))
      (DeclTree.countAll (before' ++ t' :: after')) (DeclTree.placesAll (before ++ t :: after))
      (DeclTree.placesAll (before' ++ t' :: after')) 0 (rs.forM (decl a names n)) (rs'.forM (decl a' names n')) := by
  obtain ⟨front, r, back, rfl, hfront, hr, hback⟩ := hrs.cut
  obtain ⟨front', r', back', rfl, hfront', hr', hback'⟩ := hrs'.cut
  obtain ⟨o, hrow₁, o₁, hat, hrow₂⟩ := hrow.split
  obtain ⟨o', hrow₁', o₁', hat', hrow₂'⟩ := hrow'.split
  have hfits : DeclTree.Fits a names d n := DeclTree.fits hpost n
  have hfits' : DeclTree.Fits a' names d n' := DeclTree.fits hpost' n'
  have htwins : TwinDecls a a' names d n n' := twin_decl hpost hpost' hd n n'
  have hmid := h k t t' r r' o o₁ o' o₁' ht hr hr' hat hat'
  have hlast := twin_decls hpost hpost' htwins hafter hback hback' hrow₂ hrow₂'
  rw [(hfits hr hat).1, (hfits' hr' hat').1] at hlast
  have hrest := hmid.twin hlast
  rw [(hfits.row hfront hrow₁).1, (hfits'.row hfront' hrow₁').1, hbefore.count_eq] at hrest
  have hall := (twin_decls hpost hpost' htwins hbefore hfront hfront' hrow₁ hrow₁').around hrest
  simpa only [DeclTree.countAll_append, DeclTree.countAll, DeclTree.placesAll_append, DeclTree.placesAll, hbefore.count_eq,
    hafter.count_eq, List.forM_eq_forM, List.forM_append, List.forM_cons] using hall

/-- Functions that differ inside one function are bound alongside each other around it. -/
theorem around_inside (h : AroundDecls a a' names d g g' n n') {t t' : FunctionTree}
    (ht : FunctionTree.DiffersBy g g' (DeclTree.DiffersIn g g') k t t') (hf : t.Is a names f) (hf' : t'.Is a' names f')
    (hat : a.FunctionAt d (a.DeclAt d n) p f q) (hat' : a'.FunctionAt d (a'.DeclAt d n') p' f' q') :
    Around g g' p.nodes p'.nodes k t.count t'.count t.inside t'.inside 1 (do region a names n f.locals f.body; leave)
      (do region a' names n' f'.locals f'.body; leave) := by
  have hfits : DeclTree.Fits a names d n := DeclTree.fits hpost n
  have hfits' : DeclTree.Fits a' names d n' := DeclTree.fits hpost' n'
  cases ht with
  | here _ =>
    have hend := (hfits.function hpost hf hat).1
    have hend' := (hfits'.function hpost' hf' hat').1
    refine ⟨0, [], [], ⟨by omega, .refl _⟩, ⟨by omega, .refl _⟩, fun R C hR hgap j => ?_⟩
    refine alongside_insides hpost hpost' hd hf hf' hat hat' (fun e e' he => ?_) hgap.ignores
    rw [Arena.Between, Arena.Between, hend, hend']
    exact hgap.missed e e' he
  | inner hparams hbefore ht hafter hbody =>
    obtain ⟨-, -, -, hlocals, hb, -⟩ := hf
    obtain ⟨-, -, -, hlocals', hb', -⟩ := hf'
    obtain ⟨o, hrow, hfill⟩ := hat
    obtain ⟨o', hrow', hfill'⟩ := hat'
    have hin := twin_whole hpost hpost' hd hbody hb hb' hfill hfill'
    rw [(hfits.row hlocals hrow).1, (hfits'.row hlocals' hrow').1] at hin
    have hall := ((around_row hpost hpost' hd h hbefore ht hafter hlocals hlocals' hrow hrow').twin hin).leave
    rw [FunctionTree.count, FunctionTree.count, hbody.count_eq]
    exact hall

/-- The methods of classes that differ inside one of them. The places of the heads are not inside. -/
theorem around_methods (h : AroundDecls a a' names d g g' n n') {before before' after after' : List FunctionTree}
    {t t' : FunctionTree} {ms ms' : List Function} (hbefore : FunctionTree.AllAlike before before')
    (ht : FunctionTree.DiffersBy g g' (DeclTree.DiffersIn g g') k t t') (hafter : FunctionTree.AllAlike after after')
    (hms : FunctionTree.AreAll a names (before ++ t :: after) ms)
    (hms' : FunctionTree.AreAll a' names (before' ++ t' :: after') ms')
    (hrow : Arena.Row (a.FunctionAt d (a.DeclAt d n)) p ms q)
    (hrow' : Arena.Row (a'.FunctionAt d (a'.DeclAt d n')) p' ms' q') :
    ∃ i F F', fronts (before ++ t :: after) ⊆ F ∧ fronts (before' ++ t' :: after') ⊆ F' ∧
      Cut g (FunctionTree.countAll before + k) i F (FunctionTree.countAll (before ++ t :: after))
        (FunctionTree.placesAll (before ++ t :: after)) ∧
      Cut g' (FunctionTree.countAll before + k) i F' (FunctionTree.countAll (before' ++ t' :: after'))
        (FunctionTree.placesAll (before' ++ t' :: after')) ∧
      Skips g g' p.nodes p'.nodes (FunctionTree.countAll before + k) i F F' 0 (methods a names n ms)
        (methods a' names n' ms') := by
  obtain ⟨front, m, back, rfl, hfront, hm, hback⟩ := hms.cut
  obtain ⟨front', m', back', rfl, hfront', hm', hback'⟩ := hms'.cut
  obtain ⟨o, hrow₁, o₁, hat, hrow₂⟩ := hrow.split
  obtain ⟨o', hrow₁', o₁', hat', hrow₂'⟩ := hrow'.split
  have hfits : DeclTree.Fits a names d n := DeclTree.fits hpost n
  have hfits' : DeclTree.Fits a' names d n' := DeclTree.fits hpost' n'
  have htwins : TwinDecls a a' names d n n' := twin_decl hpost hpost' hd n n'
  obtain ⟨i, F, F', hcut, hcut', hskips⟩ := around_inside hpost hpost' hd h ht hm hm' hat hat'
  have hmethod : Skips g g' o.nodes o'.nodes k i (t.front ++ F) (t'.front ++ F') 0
      (function a names (decl a names n) m m.arrowType.checked .method)
      (function a' names (decl a' names n') m' m'.arrowType.checked .method) :=
    hskips.within fun R C hR hC hin j => alongside_function hR ht.head hm hm'
      (hC.mono (List.subset_append_left _ _) (List.subset_append_left _ _)) (hin j) .method
  have hlast := twin_methods hpost hpost' hd htwins hafter hback hback' hrow₂ hrow₂'
  rw [(hfits.function hpost hm hat).1, (hfits'.function hpost' hm' hat').1, hcut.count, hcut'.count, ← Nat.add_assoc,
    ← Nat.add_assoc, ← Nat.add_assoc, ← Nat.add_assoc] at hlast
  have hrest := hmethod.twin hlast
  rw [(hfits.methods hpost hfront hrow₁).1, (hfits'.methods hpost' hfront' hrow₁').1, hbefore.count_eq] at hrest
  have hall := (twin_methods hpost hpost' hd htwins hbefore hfront hfront' hrow₁ hrow₁').skips hrest
  refine ⟨i + FunctionTree.countAll after, FunctionTree.placesAll before ++ (t.front ++ F ++ FunctionTree.placesAll after),
    FunctionTree.placesAll before' ++ (t'.front ++ F' ++ FunctionTree.placesAll after'), fronts_cut F, fronts_cut F',
    hcut.among, ?_, ?_⟩
  · rw [← hbefore.count_eq, ← hafter.count_eq]
    exact hcut'.among
  · simpa only [methods, List.forM_eq_forM, List.forM_append, List.forM_cons] using hall

/-- **Declarations that differ inside one function are bound alongside each other around it.** -/
theorem around_decl : ∀ n n' : Nat, AroundDecls a a' names d g g' n n' := by
  intro n
  induction n with
  | zero => exact fun _ _ _ _ _ _ _ _ _ _ _ _ _ hat _ => hat.elim
  | succ n ih =>
    intro n' k t t' r r' p q p' q' ht hr hr' hat hat'
    cases n' with
    | zero => exact hat'.elim
    | succ n' =>
      cases ht with
      | function ht =>
        obtain ⟨f, hx, hf⟩ := hr
        obtain ⟨f', hx', hf'⟩ := hr'
        have hin := around_inside hpost hpost' hd (ih n') ht hf hf' (hat.function hx) (hat'.function hx')
        rw [DeclTree.places, DeclTree.places, FunctionTree.places_eq, FunctionTree.places_eq]
        exact hin.within fun R C hR hC h j => alongside_funDecl hR ht.head hx hx' hf hf' hC (h j)
      | @method _ fields fields' _ _ _ _ _ _ place place' _ hfields hbefore ht hafter =>
        obtain ⟨c, hx, -, -, hms, -⟩ := id hr
        obtain ⟨c', hx', -, -, hms', -⟩ := id hr'
        have hheads := sameHeads hx hx' hr hr' hfields (heads_cut hbefore ht hafter)
        obtain ⟨i, F, F', hfronts, hfronts', hcut, hcut', hskips⟩ := around_methods hpost hpost' hd (ih n') hbefore ht hafter
          hms hms' (hat.methods hx) (hat'.methods hx')
        refine ⟨i, _, _, hcut.within (K := place :: fields.map (·.place)),
          hcut'.within (K := place' :: fields'.map (·.place)), hskips.within fun R C hR hC h j => ?_⟩
        exact alongside_classDecl hR hx hx' hheads (hC.mono (head_subset hfronts) (head_subset hfronts')) (h (j + 1))

end Down

/-! ## Programs -/

/-- Behind `lo` expressions the one program has `n` more and the other `n'`; the others correspond to each other, in front of
these and behind. -/
def Corresponds (lo n n' : Nat) (e e' : ExprRef) : Prop :=
  (e.index < lo ∧ e' = e) ∨ ∃ i, e = ⟨lo + n + i⟩ ∧ e' = ⟨lo + n' + i⟩

/-- What is wrong elsewhere than at the places. -/
def outside (L : List Location) (errors : List BindError) : List BindError.Cause :=
  (errors.filter fun e => e.location ∉ L.map some).map (·.cause)

theorem outside_of_not_mem (cause : BindError.Cause) {l : Location} (hl : l ∉ L) :
    outside L [⟨cause, some l⟩] = [cause] := by
  have hout : some l ∉ L.map some := fun h => by
    obtain ⟨x, hx, heq⟩ := List.mem_map.1 h
    cases heq
    exact hl hx
  rw [outside, List.filter_cons_of_pos (by exact decide_eq_true hout)]
  rfl

theorem outside_eq_nil {es : List BindError} (hes : ∀ e ∈ es, ∃ l ∈ L, e.location = some l) : outside L es = [] := by
  rw [outside, List.filter_eq_nil_iff.2, List.map_nil]
  intro e he
  obtain ⟨l, hl, heq⟩ := hes e he
  simp [heq, hl]

/-- The same is wrong, at whatever places, besides what is wrong at the places of the lists. -/
inductive Besides (L L' : List Location) : List BindError → List BindError → Prop
  | nil : Besides L L' [] []
  | both {es es' : List BindError} (cause : BindError.Cause) (l l' : Location) : Besides L L' es es' →
      Besides L L' (⟨cause, some l⟩ :: es) (⟨cause, some l'⟩ :: es')
  | first {es es' : List BindError} {e : BindError} : (∃ l ∈ L, e.location = some l) → Besides L L' es es' →
      Besides L L' (e :: es) es'
  | second {es es' : List BindError} {e : BindError} : (∃ l ∈ L', e.location = some l) → Besides L L' es es' →
      Besides L L' es (e :: es')

theorem Besides.append {es es' fs fs' : List BindError} (h : Besides L L' es es') (h' : Besides L L' fs fs') :
    Besides L L' (es ++ fs) (es' ++ fs') := by
  induction h with
  | nil => exact h'
  | both cause l l' _ ih => exact .both cause l l' ih
  | first he _ ih => exact .first he ih
  | second he _ ih => exact .second he ih

theorem besides_of_inside {es es' : List BindError} (hes : ∀ e ∈ es, ∃ l ∈ L, e.location = some l)
    (hes' : ∀ e ∈ es', ∃ l ∈ L', e.location = some l) : Besides L L' es es' := by
  induction es with
  | nil =>
    induction es' with
    | nil => exact .nil
    | cons e es' ih => exact .second (hes' e List.mem_cons_self) (ih fun x hx => hes' x (List.mem_cons_of_mem _ hx))
  | cons e es ih => exact .first (hes e List.mem_cons_self) (ih fun x hx => hes x (List.mem_cons_of_mem _ hx))

/-- Whether the same is wrong besides. -/
def Comparison.besides (L L' : List Location) : Comparison where
  holds := Besides L L'
  nil := .nil
  append := .append

/-- Whether the same is wrong elsewhere. -/
def Comparison.outside (L L' : List Location) : Comparison where
  holds es es' := Binder.outside L' es' = Binder.outside L es
  nil := rfl
  append h h' := by
    simp only [Binder.outside, List.filter_append, List.map_append] at h h' ⊢
    rw [h, h']

variable {lo : Nat}

theorem oneToOne_corresponds (lo n n' : Nat) : OneToOne (Corresponds lo n n') := by
  rintro ⟨e⟩ ⟨e'⟩ ⟨x⟩ ⟨x'⟩ h h'
  simp only [Corresponds, ExprRef.mk.injEq] at h h' ⊢
  rcases h with ⟨hlt, rfl⟩ | ⟨i, rfl, rfl⟩ <;> rcases h' with ⟨hlt', rfl⟩ | ⟨i', rfl, rfl⟩ <;> omega

/-- The expressions that correspond go around the gap, if what is wrong is compared likewise. -/
theorem gap_corresponds (hcovers : C.Covers F F') (hignores : C.Ignores g.inside g'.inside) :
    Gap (Corresponds lo g.count g'.count) C g g' 0 0 lo i F F' where
  front x hx := .inl ⟨by simpa using hx, rfl⟩
  back x _ := .inr ⟨x, by simp, by simp⟩
  missed e e' h := by
    rcases h with ⟨hlt, rfl⟩ | ⟨x, rfl, rfl⟩
    · omega
    · constructor <;> dsimp only <;> omega
  covers := hcovers
  ignores := hignores

theorem gap_besides : Gap (Corresponds lo g.count g'.count) (.besides g.inside g'.inside) g g' 0 0 lo i F F' :=
  gap_corresponds (fun cause l _ l' _ => .both cause l l' .nil) fun _ _ => besides_of_inside

theorem gap_outside (hcut : Cut g lo i F c L) (hcut' : Cut g' lo i F' c' L') (hL : L.Nodup) (hL' : L'.Nodup) :
    Gap (Corresponds lo g.count g'.count) (.outside g.inside g'.inside) g g' 0 0 lo i F F' := by
  refine gap_corresponds (fun cause l hl l' hl' => ?_) fun es es' hes hes' =>
    (outside_eq_nil hes').trans (outside_eq_nil hes).symm
  have hout : l ∉ g.inside := List.disjoint_of_nodup_append (hcut.places.nodup_iff.1 hL) hl
  have hout' : l' ∉ g'.inside := List.disjoint_of_nodup_append (hcut'.places.nodup_iff.1 hL') hl'
  exact (outside_of_not_mem cause hout').trans (outside_of_not_mem cause hout).symm

theorem bind_region (p : Program) (names : Names) :
    (p.bind names).resolutions =
        (region p.arena names (p.arena.decls.size + 1) p.declarations p.body (opened p)).2.resolutions ∧
      (p.bind names).errors =
        (region p.arena names (p.arena.decls.size + 1) p.declarations p.body (opened p)).2.errors := ⟨rfl, rfl⟩

variable {P P' : Program} {t t' : ProgramTree}

theorem matches_opened {R : ExprRef → ExprRef → Prop}
    (hsize : ∀ e e', R e e' → (e'.index < P'.arena.nodes.size ↔ e.index < P.arena.nodes.size)) :
    Matches R 0 (opened P) (opened P') where
  scopes := rfl
  classes := rfl
  currentClass := rfl
  meanings e e' _ := (get?_blank _ e').trans (get?_blank _ e).symm
  cells e e' h := by simpa [opened, start, Resolutions.blank] using hsize e e' h
  opened := Nat.zero_lt_one

/-- Programs that differ inside one function are bound alongside each other around it. -/
theorem around_program (hP : P.Placed) (hP' : P'.Placed) (ht : t.Is names P) (ht' : t'.Is names P')
    (h : ProgramTree.DiffersIn g g' k t t') :
    Around g g' 0 0 k P.arena.nodes.size P'.arena.nodes.size t.places t'.places 0
      (region P.arena names (P.arena.decls.size + 1) P.declarations P.body)
      (region P'.arena names (P'.arena.decls.size + 1) P'.declarations P'.body) := by
  obtain ⟨o, hrow, hfill⟩ := hP.row
  obtain ⟨o', hrow', hfill'⟩ := hP'.row
  have hd : Grammar.nestingBound ≤ maxNesting := nestingBound_le
  rw [ht.size_eq hP, ht'.size_eq hP']
  cases h with
  | @mk before before' after after' d d' body body' k hbefore hdiffers hafter hbody =>
    obtain ⟨hds, hb⟩ := ht
    obtain ⟨hds', hb'⟩ := ht'
    have hfits : DeclTree.Fits P.arena names Grammar.nestingBound (P.arena.decls.size + 1) := DeclTree.fits hP.postordered _
    have hfits' : DeclTree.Fits P'.arena names Grammar.nestingBound (P'.arena.decls.size + 1) :=
      DeclTree.fits hP'.postordered _
    have hlast := twin_whole hP.postordered hP'.postordered hd hbody hb hb' hfill hfill'
    rw [(hfits.row hds hrow).1, (hfits'.row hds' hrow').1] at hlast
    have hall := (around_row hP.postordered hP'.postordered hd (around_decl hP.postordered hP'.postordered hd _ _) hbefore
      hdiffers hafter hds hds' hrow hrow').twin hlast
    rw [hbody.count_eq]
    exact hall

/-- **Elsewhere the expressions mean the same and the same is wrong.** -/
theorem bind_elsewhere (hP : P.Placed) (hP' : P'.Placed) (ht : t.Is names P) (ht' : t'.Is names P')
    (h : ProgramTree.DiffersIn g g' lo t t') :
    (∀ e e', Corresponds lo g.count g'.count e e' →
      (P'.bind names).resolutions.get? e' = (P.bind names).resolutions.get? e) ∧
    Besides g.inside g'.inside (P.bind names).errors (P'.bind names).errors ∧
    (t.places.Nodup → t'.places.Nodup →
      outside g'.inside (P'.bind names).errors = outside g.inside (P.bind names).errors) := by
  obtain ⟨i, F, F', hcut, hcut', hskips⟩ := around_program hP hP' ht ht' h
  have hsize : ∀ e e', Corresponds lo g.count g'.count e e' →
      (e'.index < P'.arena.nodes.size ↔ e.index < P.arena.nodes.size) := by
    rw [hcut.count, hcut'.count]
    rintro e e' (⟨hlt, rfl⟩ | ⟨x, rfl, rfl⟩)
    · omega
    · dsimp only
      omega
  obtain ⟨hres, herr⟩ := bind_region P names
  obtain ⟨hres', herr'⟩ := bind_region P' names
  rw [hres, hres', herr, herr']
  have hone := oneToOne_corresponds lo g.count g'.count
  obtain ⟨-, hmatch, es, es', hes, hes', hbesides⟩ := hskips hone gap_besides 0 _ _ (matches_opened hsize)
  refine ⟨hmatch.meanings, ?_, fun hL hL' => ?_⟩
  · rw [hes, hes']
    exact hbesides
  · obtain ⟨-, -, fs, fs', hfs, hfs', houtside⟩ :=
      hskips hone (gap_outside hcut hcut' hL hL') 0 _ _ (matches_opened hsize)
    rw [hfs, hfs']
    exact houtside

end Binder

end Fool
