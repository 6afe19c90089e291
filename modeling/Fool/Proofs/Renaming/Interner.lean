import Fool.Proofs.Renaming.Names
import Mathlib.Data.List.Induction
import Mathlib.Logic.Function.Basic

/-!
# What is asked of an interner

An `Interner` gives names symbols and symbols their names back. `Interner.Lawful` is all that is asked of one: a name that
has been met keeps its symbol, a new one gets the next number, and nothing else changes. The laws leave no choice:
whatever names are met, a lawful interner gives the symbols that `Names` gives and has the names that `Names` has
(`Interner.Lawful.agrees`). So what is proved with `Names` in the place of an interner is true of each that keeps the laws.
-/

namespace Fool

/-- An interner with states `τ`: the state in which no name has been met, the symbol of a name and the state behind it,
and the name of a symbol. -/
structure Interner (τ : Type) where
  empty : τ
  intern : τ → String → Symbol × τ
  resolve? : τ → Symbol → Option String

namespace Interner

variable {τ : Type}

/-- The state in which these names have been met, in this order. -/
def met (I : Interner τ) (names : List String) : τ := names.foldl (fun t name => (I.intern t name).2) I.empty

/-- A name that has no symbol. -/
def IsNew (I : Interner τ) (t : τ) (name : String) : Prop := ∀ s, I.resolve? t s ≠ some name

/-- The laws of an interner, for the states that it comes to. -/
structure Lawful (I : Interner τ) : Prop where
  resolve?_empty : ∀ s, I.resolve? I.empty s = none
  /-- A name that has a symbol gets this symbol, and nothing changes. -/
  intern_known : ∀ names name s, I.resolve? (I.met names) s = some name → I.intern (I.met names) name = (s, I.met names)
  /-- A new name gets the first number that is free. -/
  intern_new : ∀ names name, I.IsNew (I.met names) name → ∀ s,
    (I.resolve? (I.met names) s).isSome ↔ s.index < (I.intern (I.met names) name).1.index
  /-- The symbol of a new name has this name, the other symbols have the names that they had. -/
  resolve?_new : ∀ names name, I.IsNew (I.met names) name → I.resolve? (I.intern (I.met names) name).2 =
    Function.update (I.resolve? (I.met names)) (I.intern (I.met names) name).1 (some name)

theorem met_concat (I : Interner τ) (names : List String) (name : String) :
    I.met (names ++ [name]) = (I.intern (I.met names) name).2 := by
  rw [met, List.foldl_append]
  rfl

namespace Lawful

variable {σ : Type} {I : Interner τ} {J : Interner σ}

/-- Where the same symbols have the same names, a name gets the same symbol. -/
theorem intern_congr (hI : I.Lawful) (hJ : J.Lawful) {names names' : List String}
    (h : I.resolve? (I.met names) = J.resolve? (J.met names')) (name : String) :
    (I.intern (I.met names) name).1 = (J.intern (J.met names') name).1 ∧
      I.resolve? (I.intern (I.met names) name).2 = J.resolve? (J.intern (J.met names') name).2 := by
  by_cases hnew : I.IsNew (I.met names) name
  · have hnew' : J.IsNew (J.met names') name := fun s => h ▸ hnew s
    have hsame : ∀ s : Symbol, s.index < (I.intern (I.met names) name).1.index ↔
        s.index < (J.intern (J.met names') name).1.index := fun s => by
      rw [← hI.intern_new _ _ hnew, ← hJ.intern_new _ _ hnew', h]
    have hsymbol : (I.intern (I.met names) name).1 = (J.intern (J.met names') name).1 := by
      refine congrArg Symbol.mk (Nat.le_antisymm (Nat.le_of_not_lt fun hlt => ?_) (Nat.le_of_not_lt fun hlt => ?_))
      · exact absurd ((hsame _).1 hlt) (Nat.lt_irrefl _)
      · exact absurd ((hsame _).2 hlt) (Nat.lt_irrefl _)
    exact ⟨hsymbol, by rw [hI.resolve?_new _ _ hnew, hJ.resolve?_new _ _ hnew', hsymbol, h]⟩
  · obtain ⟨s, hs⟩ := not_forall_not.1 hnew
    rw [hI.intern_known _ _ _ hs, hJ.intern_known _ _ _ (h ▸ hs)]
    exact ⟨rfl, h⟩

/-- Two lawful interners that meet the same names have the same names for the same symbols. -/
theorem resolve?_met (hI : I.Lawful) (hJ : J.Lawful) (names : List String) :
    I.resolve? (I.met names) = J.resolve? (J.met names) := by
  induction names using List.reverseRecOn with
  | nil =>
    funext s
    exact (hI.resolve?_empty s).trans (hJ.resolve?_empty s).symm
  | append_singleton names name ih =>
    rw [met_concat, met_concat]
    exact (hI.intern_congr hJ ih name).2

end Lawful

end Interner

namespace Names

/-- The names met so far, as an interner. -/
def interner : Interner Names := ⟨empty, intern, resolve?⟩

theorem met_interner (names : List String) : interner.met names = empty.internAll names := rfl

theorem find?_of_resolve? {t : Names} (ht : t.entries.toList.Nodup) {name : String} {s : Symbol}
    (h : t.resolve? s = some name) : t.find? name = some s := by
  obtain ⟨i⟩ := s
  have hi : t.entries.toList[i]? = some name := by simpa [resolve?] using h
  cases hfind : t.find? name with
  | none => exact absurd (mem_of_resolve? h) (find?_eq_none.1 hfind)
  | some s =>
    obtain ⟨j⟩ := s
    have hj : t.entries.toList[j]? = some name := by simpa [resolve?] using resolve?_of_find? hfind
    obtain ⟨hlt, -⟩ := List.getElem?_eq_some_iff.1 hi
    exact congrArg (fun n => some (Symbol.mk n)) ((List.getElem?_inj hlt ht).1 (hi.trans hj.symm)).symm

theorem nodup_internAll (names : List String) : (empty.internAll names).entries.toList.Nodup := by
  induction names using List.reverseRecOn with
  | nil => exact List.nodup_nil
  | append_singleton names name ih =>
    rw [internAll_append]
    exact (grows_intern _ name).distinct ih

/-- A name that no symbol has gets the next number. -/
theorem intern_of_isNew {t : Names} {name : String} (h : interner.IsNew t name) :
    t.intern name = (⟨t.size⟩, ⟨t.entries.push name⟩) := by
  unfold intern
  cases hfind : t.find? name with
  | none => rfl
  | some s => exact absurd (resolve?_of_find? hfind) (h s)

/-- **The list of the names met so far is a lawful interner.** -/
theorem lawful : interner.Lawful where
  resolve?_empty s := by simp [interner, resolve?, empty]
  intern_known names name s h := by
    have hfind := find?_of_resolve? (nodup_internAll names) h
    show (empty.internAll names).intern name = (s, empty.internAll names)
    rw [intern, hfind]
  intern_new names name h s := by
    rw [show interner.intern (interner.met names) name = _ from intern_of_isNew h]
    show (empty.internAll names).entries[s.index]?.isSome ↔ s.index < (empty.internAll names).entries.size
    simp
  resolve?_new names name h := by
    rw [show interner.intern (interner.met names) name = _ from intern_of_isNew h]
    funext s
    obtain ⟨i⟩ := s
    show ((empty.internAll names).entries.push name)[i]? = _
    rw [Array.getElem?_push, Function.update_apply]
    simp only [Symbol.mk.injEq]
    rfl

end Names

/-- **A lawful interner gives the symbols of `Names`, and its symbols have the names that they have there.** -/
theorem Interner.Lawful.agrees {τ : Type} {I : Interner τ} (h : I.Lawful) (names : List String) (name : String) :
    (I.intern (I.met names) name).1 = ((Names.empty.internAll names).intern name).1 ∧
      I.resolve? (I.met names) = (Names.empty.internAll names).resolve? :=
  ⟨(h.intern_congr Names.lawful (h.resolve?_met Names.lawful names) name).1, h.resolve?_met Names.lawful names⟩

end Fool
