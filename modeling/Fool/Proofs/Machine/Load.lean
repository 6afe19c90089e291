import Fool.Machine.Image
import Fool.Proofs.Codegen.Labels

/-!
# Loading generated code

Code in which every label is defined once, and every label that is used is defined, can be loaded (`load_ok`). The
address of a label is then the place at which the code defines it. Whatever code has been loaded, the labels that it
uses stand for such places (`load_sound`).
-/

namespace Fool

namespace Image

variable {code : Code}

/-- Labels that are new and different can be added; those that were there keep their address. -/
theorem addLabels_ok (labels : Std.TreeMap String Nat) (address : Nat) (hnodup : code.defined.Nodup)
    (hnew : ∀ l ∈ code.defined, labels[l]? = none) :
    ∃ labels', addLabels labels address code = .ok labels' ∧
      (∀ l, l ∉ code.defined → labels'[l]? = labels[l]?) ∧
      ∀ i l, code[i]? = some (.label l) → labels'[l]? = some (address + i) := by
  induction code generalizing labels address with
  | nil => exact ⟨labels, rfl, fun _ _ => rfl, fun i l h => by simp at h⟩
  | cons i code ih =>
    rw [Code.defined_cons] at hnodup hnew
    rw [addLabels]
    cases hi : i.defined? with
    | none =>
      rw [hi] at hnodup hnew
      obtain ⟨labels', hadd, hkept, hdefined⟩ := ih labels (address + 1) hnodup hnew
      refine ⟨labels', hadd, fun l hl => hkept l fun h => hl (by simpa [hi] using h), fun k l hk => ?_⟩
      cases k with
      | zero =>
        simp only [List.getElem?_cons_zero, Option.some.injEq] at hk
        rw [hk] at hi
        cases hi
      | succ k =>
        have := hdefined k l (by simpa using hk)
        rw [this]
        congr 1
        omega
    | some l =>
      rw [hi] at hnodup hnew
      have hfresh : l ∉ Code.defined code := (List.nodup_cons.1 hnodup).1
      have hfree : labels[l]? = none := hnew l (by simp)
      have hinserted : ∀ l' : String, (labels.insert l address)[l']? = if l = l' then some address else labels[l']? := by
        intro l'
        rw [Std.TreeMap.getElem?_insert]
        simp only [Std.LawfulEqCmp.compare_eq_iff_eq]
      have hnew' : ∀ l' ∈ Code.defined code, (labels.insert l address)[l']? = none := by
        intro l' hl'
        rw [hinserted, if_neg fun h : l = l' => hfresh (h ▸ hl')]
        exact hnew l' (by simp [hl'])
      have hcontains : labels.contains l = false := by
        rw [Std.TreeMap.contains_eq_isSome_getElem?, hfree]
        rfl
      obtain ⟨labels', hadd, hkept, hdefined⟩ := ih _ (address + 1) (List.nodup_cons.1 hnodup).2 hnew'
      refine ⟨labels', by simp only [hcontains, Bool.false_eq_true, if_false, hadd], fun l' hl' => ?_, fun k l' hk => ?_⟩
      · simp only [Code.defined_cons, hi, Option.toList_some, List.cons_append, List.nil_append, List.mem_cons,
          not_or] at hl'
        rw [hkept l' hl'.2, hinserted, if_neg fun h => hl'.1 h.symm]
      · cases k with
        | zero =>
          simp only [List.getElem?_cons_zero, Option.some.injEq] at hk
          rw [hk] at hi
          cases hi
          rw [hkept _ hfresh, hinserted, if_pos rfl]
          rfl
        | succ k =>
          have := hdefined k l' (by simpa using hk)
          rw [this]
          congr 1
          omega

/-- **Code whose labels are in order can be loaded,** and its labels stand for the places at which they are defined. -/
theorem load_ok (h : code.Closed) : ∃ image, load code = .ok image ∧ image.code = code.toArray ∧
    ∀ i l, code[i]? = some (.label l) → image.addressOf? l = some i := by
  obtain ⟨labels, hadd, -, hdefined⟩ := addLabels_ok ∅ 0 h.nodup (by simp)
  refine ⟨⟨code.toArray, labels⟩, ?_, rfl, fun i l hi => by rw [addressOf?, hdefined i l hi, Nat.zero_add]⟩
  have hused : ∀ l ∈ code.targets, labels.contains l = true := by
    intro l hl
    obtain ⟨i, hi, hl⟩ := List.mem_filterMap.1 (h.used l hl)
    have hlabel : i = .label l := by
      cases i <;> cases hl
      rfl
    obtain ⟨k, hk⟩ := List.getElem?_of_mem (hlabel ▸ hi)
    rw [Std.TreeMap.contains_eq_isSome_getElem?, hdefined k l hk]
    rfl
  have hnone : (code.filterMap (·.target?)).find? (fun l => !labels.contains l) = none := by
    rw [List.find?_eq_none]
    intro l hl
    simpa using hused l hl
  rw [load, hadd]
  dsimp only [bind, Except.bind]
  rw [hnone]

/-- Each label stands for a place at which the code defines it, or it was there before. -/
theorem addLabels_sound {labels labels' : Std.TreeMap String Nat} {address a : Nat} {l : String}
    (h : addLabels labels address code = .ok labels') (hl : labels'[l]? = some a) :
    labels[l]? = some a ∨ ∃ k, a = address + k ∧ code[k]? = some (.label l) := by
  induction code generalizing labels address with
  | nil =>
    cases h
    exact .inl hl
  | cons i code ih =>
    rw [addLabels] at h
    have hbehind : (∃ k, a = address + 1 + k ∧ code[k]? = some (.label l)) →
        ∃ k, a = address + k ∧ (i :: code)[k]? = some (.label l) := by
      rintro ⟨k, rfl, hk⟩
      exact ⟨k + 1, by omega, hk⟩
    cases hi : i.defined? with
    | none =>
      rw [hi] at h
      exact (ih h).imp_right hbehind
    | some l' =>
      rw [hi] at h
      dsimp only at h
      split at h
      · cases h
      · rcases ih h with hold | hnew
        · rw [Std.TreeMap.getElem?_insert] at hold
          split at hold
          · rename_i heq
            cases hold
            obtain rfl := Std.LawfulEqCmp.compare_eq_iff_eq.1 heq
            cases i <;> cases hi
            exact .inr ⟨0, rfl, rfl⟩
          · exact .inl hold
        · exact .inr (hbehind hnew)

/-- **In loaded code each label that is used stands for a place at which it is defined.** -/
theorem load_sound {image : Image} (h : load code = .ok image) : image.code = code.toArray ∧
    ∀ l ∈ code.targets, ∃ a, image.addressOf? l = some a ∧ image.get? a = some (.label l) := by
  unfold load at h
  cases hadd : addLabels ∅ 0 code with
  | error e =>
    rw [hadd] at h
    cases h
  | ok labels =>
    rw [hadd] at h
    dsimp only [bind, Except.bind] at h
    split at h
    · cases h
    · rename_i hnone
      cases h
      refine ⟨rfl, fun l hl => ?_⟩
      have hcontains : labels.contains l = true := by simpa using List.find?_eq_none.1 hnone l hl
      rw [Std.TreeMap.contains_eq_isSome_getElem?] at hcontains
      obtain ⟨a, ha⟩ := Option.isSome_iff_exists.1 hcontains
      refine ⟨a, ha, ?_⟩
      rcases addLabels_sound hadd ha with hold | ⟨k, rfl, hk⟩
      · simp at hold
      · rw [get?, List.getElem?_toArray, Nat.zero_add, hk]

end Image

end Fool
