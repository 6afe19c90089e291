import Fool.Names
import Mathlib.Data.List.Nodup

/-!
# Names met after other names

`base.extend t` are the names of `base` and behind them those of `t` that are new. `renumber base t` takes the symbol
of a name in `t` to the symbol that the name has there. It is injective and keeps the text of a symbol, so that it can
stand for all that differs between reading a text with names met before and reading it without.
-/

namespace Fool

namespace Names

/-- The names met so far are met first, and none comes twice if none came twice. -/
structure Grows (t u : Names) : Prop where
  first : t.entries.toList <+: u.entries.toList
  distinct : t.entries.toList.Nodup → u.entries.toList.Nodup

theorem Grows.refl (t : Names) : t.Grows t := ⟨List.prefix_rfl, id⟩

theorem Grows.trans {t u v : Names} (h : t.Grows u) (h' : u.Grows v) : t.Grows v :=
  ⟨h.first.trans h'.first, h'.distinct ∘ h.distinct⟩

/-- A name without a symbol has not been met. -/
theorem find?_eq_none {t : Names} {name : String} : t.find? name = none ↔ name ∉ t.entries.toList := by
  simp only [find?, Option.map_eq_none_iff, Array.findIdx?_eq_none_iff, beq_eq_false_iff_ne, Array.mem_toList_iff]
  exact ⟨fun h hmem => h name hmem rfl, fun h x hx heq => h (heq ▸ hx)⟩

theorem grows_intern (t : Names) (name : String) : t.Grows (t.intern name).2 := by
  unfold intern
  cases h : t.find? name with
  | some s => exact .refl t
  | none =>
    have hnew := find?_eq_none.1 h
    refine ⟨⟨[name], by simp⟩, fun hd => ?_⟩
    rw [Array.toList_push]
    exact List.nodup_append_comm.1 (List.nodup_cons.2 ⟨hnew, hd⟩)

/-! ## Interning several names -/

/-- Interns names one after the other. -/
def internAll (t : Names) (names : List String) : Names := names.foldl (fun t name => (t.intern name).2) t

theorem internAll_append (t : Names) (ns ms : List String) : t.internAll (ns ++ ms) = (t.internAll ns).internAll ms :=
  List.foldl_append

theorem find?_internAll_of_some {t : Names} {n : String} {s : Symbol} (ns : List String) (h : t.find? n = some s) :
    (t.internAll ns).find? n = some s := by
  induction ns generalizing t with
  | nil => exact h
  | cons m ns ih => exact ih (find?_intern_of_some m h)

theorem exists_find?_internAll {n : String} {ns : List String} (t : Names) (h : n ∈ ns) :
    ∃ s, (t.internAll ns).find? n = some s := by
  induction ns generalizing t with
  | nil => cases h
  | cons m ns ih =>
    obtain rfl | h := List.mem_cons.1 h
    · exact ⟨_, find?_internAll_of_some ns (find?_intern t n)⟩
    · exact ih _ h

/-- The names of `t` and behind them the new ones among those of `u`. -/
def extend (t u : Names) : Names := t.internAll u.entries.toList

@[simp] theorem extend_empty (t : Names) : t.extend empty = t := rfl

/-- A name that has a symbol behind the names of a part has the same symbol behind all. -/
theorem find?_extend_of_grows {base t u : Names} (h : t.Grows u) {n : String} {s : Symbol}
    (hn : (base.extend t).find? n = some s) : (base.extend u).find? n = some s := by
  obtain ⟨ms, hms⟩ := h.first
  rw [extend, ← hms, internAll_append]
  exact find?_internAll_of_some ms hn

/-- Names that have symbols already add nothing. -/
theorem extend_of_known {t u : Names} (h : ∀ n ∈ u.entries.toList, ∃ s, t.find? n = some s) : t.extend u = t := by
  have hall : ∀ ns : List String, (∀ n ∈ ns, ∃ s, t.find? n = some s) → t.internAll ns = t := by
    intro ns hns
    induction ns with
    | nil => rfl
    | cons n ns ih =>
      obtain ⟨s, hs⟩ := hns n List.mem_cons_self
      have hstay : (t.intern n).2 = t := by rw [intern, hs]
      rw [internAll, List.foldl_cons, hstay]
      exact ih fun m hm => hns m (List.mem_cons_of_mem _ hm)
  exact hall u.entries.toList h

/-! ## Renumbering -/

/-- The symbol that the name of a symbol of `u` has behind `base`. What is no symbol of `u` becomes no symbol. -/
def renumber (base u : Names) (s : Symbol) : Symbol :=
  ((u.resolve? s).bind (base.extend u).find?).getD ⟨(base.extend u).size + s.index⟩

theorem resolve?_eq_none {t : Names} {s : Symbol} : t.resolve? s = none ↔ t.size ≤ s.index := by
  simp [resolve?, size]

theorem mem_of_resolve? {t : Names} {s : Symbol} {n : String} (h : t.resolve? s = some n) : n ∈ t.entries.toList := by
  simpa using Array.mem_of_getElem? h

theorem find?_extend_of_resolve? {base u : Names} {s : Symbol} {n : String} (h : u.resolve? s = some n) :
    (base.extend u).find? n = some (renumber base u s) := by
  obtain ⟨x, hx⟩ := exists_find?_internAll base (mem_of_resolve? h)
  rw [renumber, h, Option.bind_some]
  exact hx.trans (by rw [extend, hx, Option.getD_some])

theorem renumber_of_resolve?_eq_none {base u : Names} {s : Symbol} (h : u.resolve? s = none) :
    renumber base u s = ⟨(base.extend u).size + s.index⟩ := by
  rw [renumber, h, Option.bind_none, Option.getD_none]

/-- A symbol and its image have the same name. -/
theorem resolve?_renumber (base u : Names) (s : Symbol) : (base.extend u).resolve? (renumber base u s) = u.resolve? s := by
  cases h : u.resolve? s with
  | some n => exact resolve?_of_find? (find?_extend_of_resolve? h)
  | none =>
    rw [renumber_of_resolve?_eq_none h]
    exact resolve?_eq_none.2 (Nat.le_add_right ..)

theorem text_renumber (base u : Names) (s : Symbol) : (base.extend u).text (renumber base u s) = u.text s := by
  rw [text, resolve?_renumber, text]

/-- Different symbols have different images, if the names that they stand for are different. -/
theorem renumber_injective {base u : Names} (hu : u.entries.toList.Nodup) : Function.Injective (renumber base u) := by
  intro s s' h
  have hres : u.resolve? s = u.resolve? s' := by rw [← resolve?_renumber base, h, resolve?_renumber]
  obtain ⟨i⟩ := s
  obtain ⟨j⟩ := s'
  cases hs : u.resolve? ⟨i⟩ with
  | some n =>
    rw [hs] at hres
    have hi : u.entries.toList[i]? = some n := by simpa [resolve?] using hs
    have hj : u.entries.toList[j]? = some n := by simpa [resolve?] using hres.symm
    obtain ⟨hlt, -⟩ := List.getElem?_eq_some_iff.1 hi
    exact congrArg Symbol.mk ((List.getElem?_inj hlt hu).1 (hi.trans hj.symm))
  | none =>
    rw [renumber_of_resolve?_eq_none hs, renumber_of_resolve?_eq_none (hs ▸ hres.symm)] at h
    exact congrArg Symbol.mk (Nat.add_left_cancel (Symbol.mk.inj h))

/-- Interning a name behind `base` gives the image of the symbol that it gets without, as long as no other names than
those of `u` are met. -/
theorem intern_extend {base t u : Names} {name : String} (h : (t.intern name).2.Grows u) :
    (base.extend t).intern name = (renumber base u (t.intern name).1, base.extend (t.intern name).2) := by
  have hu : u.resolve? (t.intern name).1 = some name := by
    have hres := resolve?_intern t name
    obtain ⟨ms, hms⟩ := h.first
    unfold resolve? at hres ⊢
    rw [← Array.getElem?_toList] at hres ⊢
    rw [← hms, List.getElem?_append_left (List.getElem?_eq_some_iff.1 hres).1, hres]
  have hfound : (base.extend u).find? name = some (renumber base u (t.intern name).1) := find?_extend_of_resolve? hu
  have hnames : ((base.extend t).intern name).2 = base.extend (t.intern name).2 := by
    rw [intern.eq_def t name]
    cases ht : t.find? name with
    | some s =>
      obtain ⟨x, hx⟩ := exists_find?_internAll base (mem_of_resolve? (resolve?_of_find? ht))
      rw [intern, show (base.extend t).find? name = some x from hx]
    | none => simp [extend, internAll]
  refine Prod.ext ?_ hnames
  have hsym := find?_intern (base.extend t) name
  rw [hnames] at hsym
  exact Option.some.inj ((find?_extend_of_grows h hsym).symm.trans hfound)

end Names

end Fool
