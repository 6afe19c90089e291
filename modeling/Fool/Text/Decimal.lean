/-!
# Decimal numbers

A number is read from ASCII digits, at least one, with an optional sign: a plus in front of natural numbers, a plus
or a minus in front of 64-bit integers. It is written with as few digits as it has, and a minus if it is negative.
-/

namespace Fool

namespace Text

/-- The ASCII digits. -/
def isDigit (c : Char) : Bool := '0' ≤ c && c ≤ '9'

/-- The value of a run of digits that is not empty. -/
def digits? (cs : List Char) : Option Nat :=
  if cs ≠ [] ∧ cs.all isDigit then some (Nat.ofDigitChars 10 cs 0) else none

/-- A natural number up to `limit`. -/
def natural? (limit : Nat) (cs : List Char) : Option Nat :=
  let value? :=
    match cs with
    | '+' :: ds => digits? ds
    | _ => digits? cs
  value?.filter (· ≤ limit)

/-- An integer. -/
def integer? (cs : List Char) : Option Int :=
  match cs with
  | '+' :: ds => (digits? ds).map fun n => (n : Int)
  | '-' :: ds => (digits? ds).map fun n => -(n : Int)
  | _ => (digits? cs).map fun n => (n : Int)

/-- A 64-bit integer. -/
def int64? (cs : List Char) : Option Int64 :=
  ((integer? cs).filter fun v => Int64.minValue.toInt ≤ v ∧ v ≤ Int64.maxValue.toInt).map Int64.ofInt

/-- The shortest decimal form. -/
def ofInt64 (v : Int64) : String := toString v.toInt

/-! ## What is written is read -/

/-- The digits of a number read as the number. -/
theorem digits?_toDigits (n : Nat) : digits? (Nat.toDigits 10 n) = some n := by
  have hall : (Nat.toDigits 10 n).all isDigit = true := by
    rw [List.all_eq_true]
    intro c hc
    have := Nat.isDigit_of_mem_toDigits (b := 10) (by decide) (by decide) hc
    simpa [Char.isDigit, isDigit, Char.le_def] using this
  rw [digits?, if_pos ⟨Nat.toDigits_ne_nil, hall⟩, Nat.ofDigitChars_toDigits (by decide) (by decide)]

/-- A run of digits begins with a digit. -/
theorem digits?_cons_of_not_isDigit {c : Char} (cs : List Char) (h : isDigit c = false) :
    digits? (c :: cs) = none := by
  simp [digits?, h]

theorem toList_toString_ofNat (n : Nat) : (toString (Int.ofNat n)).toList = Nat.toDigits 10 n := Nat.toList_repr

theorem toList_toString_negSucc (n : Nat) : (toString (Int.negSucc n)).toList = '-' :: Nat.toDigits 10 (n + 1) := by
  change ("-" ++ Nat.repr (n + 1)).toList = _
  rw [String.toList_append, Nat.toList_repr]
  rfl

/-- An integer reads back. -/
theorem integer?_toString (i : Int) : integer? (toString i).toList = some i := by
  cases i with
  | ofNat n =>
    have hd := digits?_toDigits n
    rw [toList_toString_ofNat]
    unfold integer?
    split
    · rename_i ds h
      rw [h, digits?_cons_of_not_isDigit _ (by decide)] at hd
      cases hd
    · rename_i ds h
      rw [h, digits?_cons_of_not_isDigit _ (by decide)] at hd
      cases hd
    · simp [hd]
  | negSucc n =>
    rw [toList_toString_negSucc]
    simp [integer?, digits?_toDigits]
    omega

/-- A 64-bit integer reads back. -/
theorem int64?_ofInt64 (v : Int64) : int64? (ofInt64 v).toList = some v := by
  have hrange : Int64.minValue.toInt ≤ v.toInt ∧ v.toInt ≤ Int64.maxValue.toInt := ⟨v.minValue_le_toInt, v.toInt_le⟩
  rw [int64?, ofInt64, integer?_toString, Option.filter_some, if_pos (decide_eq_true hrange), Option.map_some,
    Int64.ofInt_toInt]

end Text

end Fool
