import Mathlib.Algebra.GroupWithZero.Nat
import Fool.Proofs.Codegen.Stretches
import Fool.Proofs.Machine.Trail

/-!
# Ways through stretches of code

A `Walk` is a way ahead through a stretch of code on which just those objects are made whose code it comes to: the heap
grows by their cells, and each lies in the heap where its code ends (`Allocation.Made`). Walks are put together from a
first and a second one (`Walk.trans`), code that is jumped over may be counted in (`Walk.skip`), and the cells of an
object are counted when the whole of its code lies behind (`Walk.enclose`).

`Walks` says that every run from a configuration takes such a way or ends with a fault. For code in which no object is
made it follows from `Leads` (`Leads.walks`).
-/

namespace Fool

open Generator Machine

/-! ## Ways on which objects are made -/

namespace Allocation

/-- The number of cells that are allocated where the run comes to the addresses. -/
def total (ns : List Allocation) (ips : List Nat) : Nat := ((ns.filter fun n => n.start ∈ ips).map size).sum

variable {ns ns' : List Allocation} {ips ips' : List Nat} {n : Allocation}

theorem total_append : total (ns ++ ns') ips = total ns ips + total ns' ips := by
  simp [total]

theorem total_congr (h : ∀ n ∈ ns, n.start ∈ ips ↔ n.start ∈ ips') : total ns ips = total ns ips' := by
  unfold total
  rw [List.filter_congr fun n hn => decide_eq_decide.2 (h n hn)]

theorem total_eq_zero (h : ∀ n ∈ ns, n.start ∉ ips) : total ns ips = 0 := by
  unfold total
  rw [List.filter_eq_nil_iff.2 fun n hn => by simpa using h n hn]
  rfl

theorem total_cons (h : n.start ∈ ips) : total (n :: ns) ips = n.size + total ns ips := by
  simp [total, h]

/-- On the way an object has been made: where its code ends, the address of its last cell is on top of the stack, and the
values that were on top behind each argument lie below this cell, the first one highest. They still do at the end of the
way. -/
def Made (n : Allocation) (cs : List Config) (c' : Config) : Prop :=
  ∃ d ∈ cs ++ [c'], ∃ front vs table, d.ip = n.stop ∧ d.heap = front ++ vs.reverse ++ [table] ∧
    d.stack.head? = some (Int64.ofNat (front ++ vs.reverse).length) ∧ d.regs .hp = Int64.ofNat d.heap.length ∧
    d.heap <+: c'.heap ∧
    List.Forall₂ (fun stop v => ∃ d ∈ cs ++ [c'], d.ip = stop ∧ d.stack.head? = some v) n.ends vs

end Allocation

/-- The heap grows by so many cells, and `fp` and `ra` stay. -/
structure Config.Grows (c : Config) (k : Nat) (c' : Config) : Prop where
  fp : c'.regs .fp = c.regs .fp
  ra : c'.regs .ra = c.regs .ra
  hp : c'.regs .hp = Int64.ofNat c'.heap.length
  heap : c.heap <+: c'.heap
  length : c'.heap.length = c.heap.length + k

theorem Config.Grows.trans {c c' c'' : Config} {k k' : Nat} (h : c.Grows k c') (h' : c'.Grows k' c'') :
    c.Grows (k + k') c'' where
  fp := h'.fp.trans h.fp
  ra := h'.ra.trans h.ra
  hp := h'.hp
  heap := h.heap.trans h'.heap
  length := by
    have hlength := h.length
    have hlength' := h'.length
    omega

/-- **A way through a stretch of code:** it goes ahead, and on it the objects are made whose code it comes to. The heap
grows by their cells, and by `k` more. -/
structure Walk (lo hi : Nat) (ns : List Allocation) (k : Nat) (c : Config) (cs : List Config) (c' : Config) : Prop
    extends Config.Ahead lo hi c cs c' where
  grows : c.Grows (k + Allocation.total ns (cs.map Config.ip)) c'
  between : Allocation.Between lo hi ns
  made : ∀ n ∈ ns, n.start ∈ cs.map Config.ip → n.Made cs c'

section Walk

variable {lo mid hi k k' : Nat} {ns ns' : List Allocation} {c c' c'' : Config} {cs cs' : List Config} {n : Allocation}

/-- What has been made stays. -/
theorem Allocation.Made.append (h : n.Made cs c') (hahead : Config.Ahead mid hi c' cs' c'')
    (hheap : c'.heap <+: c''.heap) : n.Made (cs ++ cs') c'' := by
  obtain ⟨d, hd, front, vs, table, hip, hcells, htop, hhp, hkept, hends⟩ := h
  refine ⟨d, hahead.mem_append_left hd, front, vs, table, hip, hcells, htop, hhp, hkept.trans hheap, ?_⟩
  refine hends.imp fun stop v => ?_
  rintro ⟨d', hd', hstop, hv⟩
  exact ⟨d', hahead.mem_append_left hd', hstop, hv⟩

/-- What is made later is made on the whole way. -/
theorem Allocation.Made.append_left (h : n.Made cs' c'') : n.Made (cs ++ cs') c'' := by
  have hsub : ∀ d, d ∈ cs' ++ [c''] → d ∈ (cs ++ cs') ++ [c''] := fun d hd => by
    rw [List.append_assoc]
    exact List.mem_append_right _ hd
  obtain ⟨d, hd, front, vs, table, hip, hcells, htop, hhp, hkept, hends⟩ := h
  refine ⟨d, hsub d hd, front, vs, table, hip, hcells, htop, hhp, hkept, hends.imp fun stop v => ?_⟩
  rintro ⟨d', hd', hstop, hv⟩
  exact ⟨d', hsub d' hd', hstop, hv⟩

/-- The addresses of a way. -/
theorem Config.Ahead.mem_ip (h : Config.Ahead lo hi c cs c') {ip : Nat} (hip : ip ∈ cs.map Config.ip) :
    lo ≤ ip ∧ ip < hi := by
  obtain ⟨d, hd, rfl⟩ := List.mem_map.1 hip
  exact h.within d hd

theorem Walk.trans (h : Walk lo mid ns k c cs c') (h' : Walk mid hi ns' k' c' cs' c'') :
    Walk lo hi (ns ++ ns') (k + k') c (cs ++ cs') c'' := by
  have hfirst : ∀ n ∈ ns, n.start ∈ (cs ++ cs').map Config.ip → n.start ∈ cs.map Config.ip := by
    intro n hn hmem
    rw [List.map_append] at hmem
    refine (List.mem_append.1 hmem).resolve_right fun hmem => ?_
    have hlt := (h.between n hn).2
    have hle := (h'.mem_ip hmem).1
    omega
  have hsecond : ∀ n ∈ ns', n.start ∈ (cs ++ cs').map Config.ip → n.start ∈ cs'.map Config.ip := by
    intro n hn hmem
    rw [List.map_append] at hmem
    refine (List.mem_append.1 hmem).resolve_left fun hmem => ?_
    have hle := (h'.between n hn).1
    have hlt := (h.mem_ip hmem).2
    omega
  have hsub : ∀ ip, ip ∈ cs.map Config.ip ∨ ip ∈ cs'.map Config.ip → ip ∈ (cs ++ cs').map Config.ip := by
    intro ip hip
    rw [List.map_append]
    exact List.mem_append.2 hip
  refine ⟨h.toAhead.trans h'.toAhead, ?_, ?_, fun n hn hmem => ?_⟩
  · have hgrows := h.grows.trans h'.grows
    rw [Allocation.total_append, Allocation.total_congr fun n hn => ⟨hfirst n hn, fun h => hsub _ (.inl h)⟩,
      Allocation.total_congr fun n hn => ⟨hsecond n hn, fun h => hsub _ (.inr h)⟩]
    rwa [show k + k' + (Allocation.total ns (cs.map Config.ip) + Allocation.total ns' (cs'.map Config.ip)) =
      k + Allocation.total ns (cs.map Config.ip) + (k' + Allocation.total ns' (cs'.map Config.ip)) by omega]
  · exact (h.between.mono (Nat.le_refl _) h'.le).append (h'.between.mono h.le (Nat.le_refl _))
  · rcases List.mem_append.1 hn with hn | hn
    · exact (h.made n hn (hfirst n hn hmem)).append h'.toAhead h'.grows.heap
    · exact (h'.made n hn (hsecond n hn hmem)).append_left

/-- Code that the way does not come to. -/
theorem Walk.skip (h : Walk mid hi ns k c cs c') (hlo : lo ≤ mid) (hns' : Allocation.Between lo mid ns') :
    Walk lo hi (ns' ++ ns) k c cs c' := by
  have hnever : ∀ n ∈ ns', n.start ∉ cs.map Config.ip := by
    intro n hn hmem
    have hlt := (hns' n hn).2
    have hle := (h.mem_ip hmem).1
    omega
  refine ⟨h.toAhead.mono hlo, ?_, ?_, fun n hn hmem => ?_⟩
  · rw [Allocation.total_append, Allocation.total_eq_zero hnever, Nat.zero_add]
    exact h.grows
  · exact (hns'.mono (Nat.le_refl _) h.le).append (h.between.mono hlo (Nat.le_refl _))
  · rcases List.mem_append.1 hn with hn | hn
    · exact absurd hmem (hnever n hn)
    · exact h.made n hn hmem

/-- The cells by which the heap grows may be those of an object that has been made on the whole way. -/
theorem Walk.enclose (h : Walk lo hi ns n.size c cs c') (hip : c.ip = lo) (hstart : n.start = lo) (hend : c'.ip = hi)
    (hlt : lo < hi) (hmade : n.Made cs c') : Walk lo hi (n :: ns) 0 c cs c' := by
  have hmem : n.start ∈ cs.map Config.ip := by
    rcases List.mem_append.1 h.first with hc | hc
    · rw [hstart, ← hip]
      exact List.mem_map_of_mem hc
    · rw [List.mem_singleton] at hc
      rw [← hc] at hend
      omega
  refine ⟨h.toAhead, ?_, fun n' hn' => ?_, fun n' hn' hmem' => ?_⟩
  · rw [Nat.zero_add, Allocation.total_cons hmem]
    exact h.grows
  · rcases List.mem_cons.1 hn' with rfl | hn'
    · omega
    · exact h.between n' hn'
  · rcases List.mem_cons.1 hn' with rfl | hn'
    · exact hmade
    · exact h.made n' hn' hmem'

end Walk

/-! ## Runs that take such a way -/

section Walks

variable {image : View} {M lo mid hi k : Nat} {ns ns' : List Allocation} {c : Config}
variable {P P' : List Config → Config → Prop}

/-- **Every run from the configuration takes a way through the stretch,** to a configuration with the property. -/
def Walks (image : View) (M lo hi : Nat) (ns : List Allocation) (k : Nat) (P : List Config → Config → Prop)
    (c : Config) : Prop := Goes image M lo (fun cs c' => Walk lo hi ns k c cs c' ∧ P cs c') c

theorem Walks.mono (h : Walks image M lo hi ns k P c) (hP : ∀ cs c', Walk lo hi ns k c cs c' → P cs c' → P' cs c') :
    Walks image M lo hi ns k P' c := Goes.mono h fun cs c' ⟨hwalk, hp⟩ => ⟨hwalk, hP cs c' hwalk hp⟩

theorem Walks.bind (h : Walks image M lo mid ns 0 P c) (h' : ∀ cs c', c'.regs .hp = Int64.ofNat c'.heap.length → P cs c' →
      Walks image M mid hi ns' k (fun cs' c'' => P' (cs ++ cs') c'') c') : Walks image M lo hi (ns ++ ns') k P' c := by
  refine Goes.bind h fun cs c' ⟨hwalk, hp⟩ => ⟨hwalk.toAhead, ?_⟩
  refine Goes.mono (h' cs c' hwalk.grows.hp hp) fun cs' c'' ⟨hwalk', hp'⟩ => ?_
  have htrans := hwalk.trans hwalk'
  rw [Nat.zero_add] at htrans
  exact ⟨htrans, hp'⟩

/-- A way that begins further on. -/
theorem Goes.skip {Q : List Config → Config → Prop} (h : Goes image M mid Q c) (hlo : lo ≤ mid) : Goes image M lo Q c := by
  intro m hm
  refine (h m hm).imp_left ?_
  rintro ⟨ms, m', e, m'', htrail, hsorted, hms, hadvance⟩
  exact ⟨ms, m', e, m'', htrail, hsorted, fun m₁ hm₁ => ⟨Nat.le_trans hlo (hms m₁ hm₁).1, (hms m₁ hm₁).2⟩, hadvance⟩

/-- Code in front of the configuration, to which the way does not come. -/
theorem Walks.skip (h : Walks image M mid hi ns k P c) (hlo : lo ≤ mid) (hns' : Allocation.Between lo mid ns') :
    Walks image M lo hi (ns' ++ ns) k P c :=
  (Goes.mono h fun _ _ ⟨hwalk, hp⟩ => ⟨hwalk.skip hlo hns', hp⟩).skip hlo

/-- Code in which no object is made. -/
theorem Leads.walks {Q : Config → Prop} (h : Leads image M hi Q c) (hQ : ∀ c', Q c' → c.Grows k c') :
    Walks image M c.ip hi [] k (fun _ => Q) c :=
  Goes.mono h fun _ c' ⟨hahead, hq⟩ => ⟨⟨hahead, hQ c' hq, nofun, nofun⟩, hq⟩

end Walks

end Fool
