import Fool.Proofs.Renaming.Binding
import Fool.Proofs.Renaming.Parse

/-!
# What programs mean, by names

The symbols of a program depend on the names that were met before it was read. `Bindings.meaning?` compares by names
instead: it does not depend on them (`Program.meaning_of_parse`). So two texts may be taken to be read with the same
names (`Program.parse_together`).
-/

namespace Fool

/-! ## Renaming twice -/

section Twice

variable (f g : Symbol → Symbol)

mutual

theorem CheckedType.rename_rename : ∀ ty : CheckedType, (ty.rename f).rename g = ty.rename (g ∘ f)
  | .int | .bool | .null => rfl
  | .object _ => rfl
  | .arrow params ret => by
    rw [rename, rename, rename, CheckedType.renameAll_renameAll params, CheckedType.rename_rename ret]
  | .classOf _ fields methods => by
    rw [rename, rename, rename, CheckedType.renameAll_renameAll fields, CheckedType.renameAll_renameAll methods]
    rfl

theorem CheckedType.renameAll_renameAll : ∀ tys : List CheckedType,
    CheckedType.renameAll g (CheckedType.renameAll f tys) = CheckedType.renameAll (g ∘ f) tys
  | [] => rfl
  | ty :: tys => by
    rw [renameAll, renameAll, renameAll, CheckedType.rename_rename ty, CheckedType.renameAll_renameAll tys]

end

theorem Entry.rename_rename (e : Entry) : (e.rename f).rename g = e.rename (g ∘ f) := by
  simp only [Entry.rename, CheckedType.rename_rename]

theorem Resolution.rename_rename (r : Resolution) : (r.rename f).rename g = r.rename (g ∘ f) := by
  simp only [Resolution.rename, Entry.rename_rename, Option.map_map]
  congr 2
  funext e
  exact Entry.rename_rename f g e

end Twice

/-! ## Meanings by names -/

/-- What an expression means, with the symbols that `read` gives to the names. -/
def Bindings.meaning? (b : Bindings) (names : Names) (read : String → Symbol) (e : ExprRef) : Option Resolution :=
  (b.resolutions.get? e).map (Resolution.rename fun s => read (names.text s))

theorem Bindings.meaning?_rename {f : Symbol → Symbol} {names names' : Names}
    (ht : ∀ s, names'.text (f s) = names.text s) (b : Bindings) (read : String → Symbol) (e : ExprRef) :
    (b.rename f).meaning? names' read e = b.meaning? names read e := by
  have hsame : ((fun s => read (names'.text s)) ∘ f) = fun s => read (names.text s) := funext fun s => congrArg read (ht s)
  simp only [meaning?, rename, Resolutions.get?_rename, Option.map_map]
  congr 1
  funext r
  exact (Resolution.rename_rename f _ r).trans (by rw [hsame])

namespace Program

variable {text text' : String} {base base' names names' : Names} {p p' : Program}

/-- A text that is read behind some names is read behind none. -/
theorem exists_first (h : parse text base = (.ok p, names)) : ∃ q, parse text .empty = (.ok q, namesOf text) ∧
    p = q.rename (Names.renumber base (namesOf text)) ∧ names = base.extend (namesOf text) := by
  rw [parse_behind] at h
  cases hq : (parse text .empty).1 with
  | error e =>
    rw [hq] at h
    cases h
  | ok q =>
    rw [hq] at h
    cases h
    exact ⟨q, Prod.ext hq rfl, rfl, rfl⟩

theorem parse_again (h : parse text .empty = (.ok p, namesOf text)) (base : Names) :
    parse text base = (.ok (p.rename (Names.renumber base (namesOf text))), base.extend (namesOf text)) := by
  rw [parse_behind, h]
  rfl

/-- **What a program means by names does not depend on the names met before,** nor do its faults. -/
theorem meaning_of_parse (h : parse text base = (.ok p, names)) (h' : parse text base' = (.ok p', names')) :
    (∀ read e, (p'.bind names').meaning? names' read e = (p.bind names).meaning? names read e) ∧
      (p'.bind names').errors = (p.bind names).errors := by
  have hfirst : ∀ {base names : Names} {p q : Program}, parse text .empty = (.ok q, namesOf text) →
      p = q.rename (Names.renumber base (namesOf text)) → names = base.extend (namesOf text) →
      (∀ read e, (p.bind names).meaning? names read e = (q.bind (namesOf text)).meaning? (namesOf text) read e) ∧
        (p.bind names).errors = (q.bind (namesOf text)).errors := by
    rintro base _ _ q - rfl rfl
    have htext := Names.text_renumber base (namesOf text)
    rw [bind_rename (Names.renumber_injective (namesOf_distinct text)) htext]
    exact ⟨Bindings.meaning?_rename htext (q.bind (namesOf text)), rfl⟩
  obtain ⟨q, hq, hp, hnames⟩ := exists_first h
  obtain ⟨q', hq', hp', hnames'⟩ := exists_first h'
  cases hq.symm.trans hq'
  obtain ⟨hmeaning, herrors⟩ := hfirst hq hp hnames
  obtain ⟨hmeaning', herrors'⟩ := hfirst hq hp' hnames'
  exact ⟨fun read e => (hmeaning' read e).trans (hmeaning read e).symm, herrors'.trans herrors.symm⟩

/-- Two texts can be read so that their names have the same symbols. -/
theorem parse_together (h : parse text base = (.ok p, names)) (h' : parse text' base' = (.ok p', names')) :
    ∃ q q' u v v', parse text v = (.ok q, u) ∧ parse text' v' = (.ok q', u) := by
  obtain ⟨q, hq, -⟩ := exists_first h
  obtain ⟨q', hq', -⟩ := exists_first h'
  have hknown : ((namesOf text').extend (namesOf text)).extend (namesOf text') = (namesOf text').extend (namesOf text) := by
    refine Names.extend_of_known fun n hn => ?_
    cases hs : (namesOf text').find? n with
    | none => exact absurd hn (Names.find?_eq_none.1 hs)
    | some s => exact ⟨s, Names.find?_internAll_of_some _ hs⟩
  have htogether := parse_again hq' ((namesOf text').extend (namesOf text))
  rw [hknown] at htogether
  exact ⟨_, _, _, _, _, parse_again hq (namesOf text'), htogether⟩

end Program

end Fool
