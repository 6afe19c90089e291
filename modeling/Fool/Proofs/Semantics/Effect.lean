import Fool.Proofs.Codegen.Within
import Fool.Proofs.Semantics.CallFree
import Fool.Proofs.Semantics.Correct

/-!
# The effect of an expression without calls

The run of an expression without calls puts one value on the stack. It leaves the stack and the heap that it found as
they are, and the heap grows by the cells of the objects that are made (`Machine.Effect`). This holds in every state in
which stack and heap are apart, also if nothing in memory is what the program would have put there
(`effect_of_generate`). The ways of `Stretch.Evaluates` are read as what machines do.
-/

namespace Fool

open Generator Machine

/-! ## What a run does to stack and heap -/

/-- The object has been made on the way. Where its code ends, the pointer to it is on top of the stack, and it points to
the last cell of the heap; the values that were on top behind its arguments lie below this cell, that of the first
argument highest, and they do so to the end of the way. -/
def Allocation.MadeBy (n : Allocation) (ms : List Machine) (m' : Machine) : Prop :=
  ∃ m₂ ∈ ms ++ [m'], ∃ last, m₂.ip = n.stop ∧ m₂.top? = some (Int64.ofNat last) ∧ m₂.Apart (last + 1) ∧
    ∀ i stop, n.ends[i]? = some stop → i < last ∧ ∃ m₁ ∈ ms ++ [m'], ∃ v, m₁.ip = stop ∧ m₁.top? = some v ∧
      m₂.cell? (last - (i + 1)) = some v ∧ m'.cell? (last - (i + 1)) = some v

/-- **The effect of a stretch of code** on a machine whose heap ends at `h`: one value is put on the stack. The run goes
ahead through the stretch, and each `new` whose code it comes to has made an object. -/
structure Machine.Effect (m : Machine) (h : Nat) (x : Stretch) (ms : List Machine) (m' : Machine) : Prop where
  ahead : (ms.map Machine.ip).Pairwise (· < ·)
  within : ∀ m₁ ∈ ms, x.start ≤ m₁.ip ∧ m₁.ip < x.stop
  ip : m'.ip = x.stop
  sp : m'.sp + 1 = m.sp
  fp : m'.fp = m.fp
  ra : m'.ra = m.ra
  stack : ∀ a, m.sp ≤ a → m'.cell? a = m.cell? a
  heap : ∀ a < h, m'.cell? a = m.cell? a
  apart : m'.Apart (h + Allocation.total x.allocations (ms.map Machine.ip))
  made : ∀ n ∈ x.allocations, n.start ∈ ms.map Machine.ip → n.MadeBy ms m'

section Runs

variable {image : Image} {M h : Nat} {m m' : Machine} {ms : List Machine} {c' d : Config} {cs : List Config} {x : Stretch}
variable {n : Allocation}

/-! ## Machines on the way -/

/-- On the way there is a machine for each configuration. -/
theorem exists_shows_of_mem (hms : List.Forall₂ (fun m c => Shows image M (m.limited none) c) ms cs) (hd : d ∈ cs) :
    ∃ m₁ ∈ ms, Shows image M (m₁.limited none) d := by
  induction hms with
  | nil => cases hd
  | @cons m₁ _ _ _ hm _ ih =>
    rcases List.mem_cons.1 hd with rfl | hd
    · exact ⟨m₁, List.mem_cons_self, hm⟩
    · obtain ⟨m₂, hm₂, hshows⟩ := ih hd
      exact ⟨m₂, List.mem_cons_of_mem m₁ hm₂, hshows⟩

theorem Machine.Apart.of_limited {limit : Option Nat} (hm : (m.limited limit).Apart h) : m.Apart h :=
  ⟨hm.bound, hm.size, hm.hp, hm.le, hm.inside⟩

theorem Allocation.Made.madeBy (h : n.Made cs c')
    (hms : List.Forall₂ (fun m c => Shows image M (m.limited none) c) ms cs)
    (hm' : Shows image M (m'.limited none) c') : n.MadeBy ms m' := by
  have hall := List.rel_append hms (.cons hm' .nil)
  obtain ⟨d, hd, front, vs, table, hip, hcells, htop, hhp, hkept, hends⟩ := h
  obtain ⟨m₂, hm₂, hshows⟩ := exists_shows_of_mem hall hd
  have hlast : d.heap.length = (front ++ vs.reverse).length + 1 := by
    rw [hcells, List.length_append, List.length_singleton]
  have hapart := hshows.apart hhp
  rw [hlast] at hapart
  refine ⟨m₂, hm₂, (front ++ vs.reverse).length, hshows.ip.trans hip, hshows.top.trans htop, hapart.of_limited, ?_⟩
  intro i stop hi
  obtain ⟨hlt, rfl⟩ := List.getElem?_eq_some_iff.1 hi
  have hlt' : i < vs.length := hends.length_eq ▸ hlt
  obtain ⟨d₁, hd₁, hstop, hv⟩ := hends.get hlt hlt'
  obtain ⟨m₁, hm₁, hshows₁⟩ := exists_shows_of_mem hall hd₁
  have hlength : (front ++ vs.reverse).length = front.length + vs.length := by
    rw [List.length_append, List.length_reverse]
  have hcell : d.heap[(front ++ vs.reverse).length - (i + 1)]? = some vs[i] := by
    rw [hcells, List.getElem?_append_left (by omega), List.getElem?_append_right (by omega),
      List.getElem?_reverse (by omega), hlength,
      show vs.length - 1 - (front.length + vs.length - (i + 1) - front.length) = i by omega, List.getElem?_eq_getElem hlt']
  have hcell' := getElem?_of_isPrefix hcell hkept
  refine ⟨by omega, m₁, hm₁, vs[i], hshows₁.ip.trans hstop, hshows₁.top.trans hv, ?_, ?_⟩
  · exact (hshows.cell_heap (List.getElem?_eq_some_iff.1 hcell).1).trans hcell
  · exact (hm'.cell_heap (List.getElem?_eq_some_iff.1 hcell').1).trans hcell'

/-! ## The run of a stretch -/

/-- **The way through a stretch has its effect,** whatever lies in memory. -/
theorem Stretch.Evaluates.exists_effect (hx : x.Evaluates (.upTo m.image x.stop) m.options.memorySize)
    (hip : m.ip = x.start) (hm : m.Apart h) :
    m.FailsIn x.start x.stop ∨ ∃ ms m', Trail m ms m' ∧ m.Effect h x ms m' := by
  have hsize := hm.size
  have hle := hm.le
  have hinside := hm.inside
  have hlength : (m.memory.toList.take h).length = h := by
    rw [List.length_take, Array.length_toList]
    omega
  have hshows := hm.shows
  rw [hip] at hshows
  have hhp : m.get .hp = Int64.ofNat (m.memory.toList.take h).length := by
    rw [hlength]
    exact hm.hp
  rcases Goes.limited (hx hhp) hshows with hfails | ⟨ms, m', cs, c', htrail, hms, hm', hwalk, v, H', R', out', rfl⟩
  · exact .inl hfails
  · have hips := map_ip_eq (fun hm => hm.ip) hms
    have hsp : m.sp + (m.memory.toList.drop m.sp).length = m.options.memorySize := hshows.sp
    have hsp' : m'.sp + (m.memory.toList.drop m.sp).length + 1 = m.options.memorySize := hm'.sp
    have hgrown : H'.length = h + Allocation.total x.allocations (ms.map Machine.ip) := by
      rw [hips]
      simpa [hlength] using hwalk.grows.length
    refine .inr ⟨ms, m', htrail, ?_⟩
    constructor
    case ahead => exact hips ▸ hwalk.sorted
    case within => exact fun m₁ hm₁ => hwalk.mem_ip (hips ▸ List.mem_map_of_mem hm₁)
    case ip => exact hm'.ip
    case sp => omega
    case fp => exact (hm'.registers .fp).trans hwalk.grows.fp
    case ra => exact (hm'.registers .ra).trans hwalk.grows.ra
    case stack =>
      intro a ha
      obtain ⟨j, rfl⟩ := Nat.exists_eq_add_of_le ha
      have hcell : m'.cell? (m'.sp + (j + 1)) = m.cell? (m.sp + j) :=
        (hm'.cell_stack (j + 1)).trans (hshows.cell_stack j).symm
      rwa [show m'.sp + (j + 1) = m.sp + j by omega] at hcell
    case heap =>
      intro a ha
      have hheap := hshows.cell_heap (a := a) (by rw [hlength]; exact ha)
      have hheap' := hm'.cell_heap (a := a) (by rw [hgrown]; omega)
      refine hheap'.trans (Eq.trans ?_ hheap.symm)
      have hlt : a < (m.memory.toList.take h).length := by omega
      rw [List.getElem?_eq_getElem hlt]
      exact getElem?_of_isPrefix (List.getElem?_eq_getElem hlt) hwalk.grows.heap
    case apart =>
      rw [← hgrown]
      exact (hm'.apart hwalk.grows.hp).of_limited
    case made => exact fun n hn hmem => (hwalk.made n hn (hips ▸ hmem)).madeBy hms hm'

end Runs

/-! ## Programs -/

section Programs

variable {p : Program} {names : Names} {frameBase : Int64} {whole : Code} {e : ExprRef}

/-- **The effect of an expression without calls.** The code of each expression lies in the code of the program, and
whatever code is generated for the expression is a stretch that it occupies. From every state at the beginning of such a
stretch in which stack and heap are apart, the run fails within the stretch or has the effect of the stretch. -/
theorem effect_of_generate (hbind : (p.bind names).errors = [])
    (hcode : p.generate (p.bind names) frameBase = .ok whole) (hfree : p.arena.CallFree e) :
    ∃ image, Image.load whole = .ok image ∧
      (p.Placed → e.index < p.arena.nodes.size → ∃ inClass x,
        Occupies p.arena (p.bind names).resolutions frameBase inClass e x ∧ image.Placed x.start x.code) ∧
      (∀ n g code g', exprCode p.arena (p.bind names).resolutions frameBase n e g = .ok (code, g') → ∀ start, ∃ x,
        Occupies p.arena (p.bind names).resolutions frameBase g.inClass e x ∧ x.start = start ∧ x.code = code) ∧
      ∀ inClass x, Occupies p.arena (p.bind names).resolutions frameBase inClass e x → image.Placed x.start x.code →
        ∀ m h, m.image = image → m.ip = x.start → m.Apart h →
          m.FailsIn x.start x.stop ∨ ∃ ms m', Trail m ms m' ∧ m.Effect h x ms m' := by
  obtain ⟨image, hload, himage, hlabels⟩ := Image.load_ok (closed_of_generate hcode)
  have hlist : image.code.toList = whole := by rw [himage]
  have hlabels' : ∀ {i : Nat} {l : String}, image.get? i = some (.label l) → image.addressOf? l = some i := by
    intro i l hi
    rw [Image.get?, himage, List.getElem?_toArray] at hi
    exact hlabels i l hi
  refine ⟨image, hload, ?_, ?_, ?_⟩
  · intro hplaced he
    obtain ⟨inClass, code, hcoded, before, after, hwhole⟩ := exists_coded_of_generate ⟨hplaced, hbind⟩ hcode he
    obtain ⟨x, hx, hstart, rfl⟩ := hcoded.occupies hfree before.length
    rw [← hwhole] at hlist
    exact ⟨inClass, x, hx, hstart ▸ Image.placed_of_eq hlist⟩
  · intro n g code g' hrun start
    obtain ⟨-, hmakes⟩ := makes_exprCode n e g code g' hrun
    obtain ⟨-, hcoded⟩ := hmakes rfl
    exact (hcoded (List.Subset.refl g'.units)).occupies hfree start
  · rintro inClass x hx hp m h rfl hip hm
    exact (hx.evaluates (fun hi => hlabels' (View.whole_of_get? hi)) (hp.upTo (Nat.le_refl _))).exists_effect hip hm

/-- The body of the function makes an object of its first argument: an object of two cells behind the table of the class.
The run has entered the function after 25 steps. -/
theorem effect_of_generate_makerCall : ∃ code image x m,
    makerCall.generate (makerCall.bind makerNames) (Int64.ofNat 100) = .ok code ∧ Image.load code = .ok image ∧
      Occupies makerCall.arena (makerCall.bind makerNames).resolutions (Int64.ofNat 100) false ⟨2⟩ x ∧
      image.Placed x.start x.code ∧ (Machine.start image ⟨100, none⟩).After 25 m ∧ m.ip = x.start ∧ m.Apart 1 ∧
      ∃ ms m', Trail m ms m' ∧ m.Effect 1 x ms m' := by
  have hfree : makerCall.arena.CallFree ⟨2⟩ := (placed_of_parse parse_makerCall).postordered.callFree (by decide +kernel)
  -- the code of the body, and where it lies
  let object : Code := [.load .fp, .push 1, .arith .add, .loadWord] ++ Code.object 1 98
  obtain ⟨⟨_, g⟩, hobject, rfl⟩ : ∃ r, exprCode makerCall.arena (makerCall.bind makerNames).resolutions (Int64.ofNat 100) 8
      ⟨2⟩ .start = .ok r ∧ r.1 = object := exists_of_any (by decide +kernel)
  obtain ⟨code, hcode, hlength, hlies, hcheck⟩ : ∃ code,
      makerCall.generate (makerCall.bind makerNames) (Int64.ofNat 100) = .ok code ∧ code.length = 83 ∧
      code = code.take 54 ++ object ++ code.drop 73 ∧ ((Image.load code).toOption.any fun image =>
        let first := advance 25 (Machine.start image ⟨100, none⟩)
        decide (first.1.isNone ∧ first.2.ip = 54 ∧ first.2.memory.size = 100 ∧ first.2.hp = 1 ∧ first.2.sp = 91 ∧
          ((advance 100 first.2).1.any (·.isOk)) = true)) = true := exists_of_any (by decide +kernel)
  obtain ⟨image, hload, hnone, hip, hsize, hhp, hsp, hends⟩ := exists_of_any hcheck
  obtain ⟨image', hload', -, hoccupies, heffect⟩ := effect_of_generate bind_makerCall hcode hfree
  obtain rfl : image = image' := Except.ok.inj (hload.symm.trans hload')
  obtain ⟨x, hx, hstart, hxcode⟩ := hoccupies 8 .start object g hobject 54
  obtain ⟨labels, rfl⟩ : ∃ labels, image = ⟨code.toArray, labels⟩ := by
    obtain ⟨_, hload', hcode', -⟩ := Image.load_ok (closed_of_generate hcode)
    obtain rfl := Except.ok.inj (hload.symm.trans hload')
    exact ⟨_, congrArg (Image.mk · _) hcode'⟩
  have hp : Image.Placed ⟨code.toArray, labels⟩ x.start x.code := by
    have hfront : (code.take 54).length = 54 := by rw [List.length_take, hlength, Nat.min_eq_left (by decide)]
    rw [hstart, hxcode, ← hfront]
    exact Image.placed_of_eq hlies
  have hlike := like_advance 25 (Machine.start ⟨code.toArray, labels⟩ ⟨100, none⟩)
  have hoptions : (advance 25 (Machine.start ⟨code.toArray, labels⟩ ⟨100, none⟩)).2.options = ⟨100, none⟩ := hlike.options
  have hm : (advance 25 (Machine.start ⟨code.toArray, labels⟩ ⟨100, none⟩)).2.Apart 1 := by
    refine ⟨?_, ?_, hhp, ?_, ?_⟩ <;> simp only [hoptions, hsize, hsp] <;> decide
  refine ⟨code, _, x, _, hcode, hload, hx, hp, Prod.ext (Option.isNone_iff_eq_none.1 hnone) rfl, hip.trans hstart.symm, hm, ?_⟩
  refine (heffect false x hx hp _ 1 hlike.image (hip.trans hstart.symm) hm).resolve_left fun hfails => ?_
  -- the run ends with a value
  obtain ⟨e, m', n, herror⟩ := hfails.stops
  rcases hanswer : advance 100 (advance 25 (Machine.start ⟨code.toArray, labels⟩ ⟨100, none⟩)).2 with ⟨_ | ⟨_ | v⟩, m''⟩
  · simp [hanswer] at hends
  · simp [hanswer, Except.isOk, Except.toBool] at hends
  · cases (advance_unique herror hanswer).1

end Programs

end Fool
