/-!
# Blank characters, words and lines

The Unicode property White_Space, and what is cut at it: `words` are the longest runs without a blank character,
`trim` drops the blanks at both ends, `lines` cuts at line feeds.
-/

namespace Fool

namespace Text

/-- The characters with the Unicode property White_Space. -/
def isSpace (c : Char) : Bool :=
  let n := c.toNat
  (0x09 ≤ n && n ≤ 0x0d) || n == 0x20 || n == 0x85 || n == 0xa0 || n == 0x1680 || (0x2000 ≤ n && n ≤ 0x200a)
    || n == 0x2028 || n == 0x2029 || n == 0x202f || n == 0x205f || n == 0x3000

/-- Without the blanks in front. -/
def trimStart (cs : List Char) : List Char := cs.dropWhile isSpace

/-- Without the blanks at the end. -/
def trimEnd (cs : List Char) : List Char := (cs.reverse.dropWhile isSpace).reverse

/-- Without the blanks at both ends. -/
def trim (cs : List Char) : List Char := trimEnd (trimStart cs)

theorem length_dropWhile_le (p : Char → Bool) (cs : List Char) : (cs.dropWhile p).length ≤ cs.length :=
  (List.dropWhile_sublist p).length_le

/-- The longest runs without a blank, in order. -/
def words (cs : List Char) : List (List Char) :=
  match _h : trimStart cs with
  | [] => []
  | c :: rest => (c :: rest.takeWhile (!isSpace ·)) :: words (rest.dropWhile (!isSpace ·))
termination_by cs.length
decreasing_by
  have h1 := length_dropWhile_le isSpace cs
  have h2 := length_dropWhile_le (!isSpace ·) rest
  have h3 : (trimStart cs).length = rest.length + 1 := by rw [_h]; rfl
  unfold trimStart at h3
  omega

/-- The pieces between line feeds, one more than there are line feeds. -/
def lines (cs : List Char) : List (List Char) :=
  match _h : cs.dropWhile (· != '\n') with
  | [] => [cs]
  | _ :: rest => cs.takeWhile (· != '\n') :: lines rest
termination_by cs.length
decreasing_by
  have h1 := length_dropWhile_le (· != '\n') cs
  rw [_h] at h1
  simp only [List.length_cons] at h1
  omega

end Text

end Fool
