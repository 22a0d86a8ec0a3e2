/-
Formula/Text/Blank.lean

White space, and texts without it at their ends.

The blank characters are those with the Unicode property White_Space:
twenty-five code points in ten ranges.
-/
import Formula.Text.Ranges

namespace Formula.Text

/-- The ranges of blank code points. -/
def blankRanges : List (Nat × Nat) :=
  [(0x09, 0x0D), (0x20, 0x20), (0x85, 0x85), (0xA0, 0xA0), (0x1680, 0x1680),
    (0x2000, 0x200A), (0x2028, 0x2029), (0x202F, 0x202F), (0x205F, 0x205F), (0x3000, 0x3000)]

example : ascending blankRanges = true ∧ rangesSize blankRanges = 25 := by decide +kernel

/-- Whether a character is white space. -/
def isBlank (c : Char) : Bool := inRanges blankRanges c

/-- The text without the white space at its ends. -/
def trim (cs : List Char) : List Char :=
  ((cs.dropWhile isBlank).reverse.dropWhile isBlank).reverse

/-- The text before the first `c` and the text after it, if it has one. -/
def splitAt? (c : Char) (cs : List Char) : Option (List Char × List Char) :=
  match cs.span (· != c) with
  | (before, _ :: after) => some (before, after)
  | (_, []) => none

end Formula.Text
