/-
Formula/Text/Ranges.lean

Sets of characters as ranges of code points.

A set is a list of pairs, the first and the last code point of each range.
A property of the Unicode standard is written down this way, its ranges
ascending and each apart from the next, so that no two could be one.
-/

namespace Formula.Text

/-- Whether the code point of `c` lies in one of the ranges. -/
def inRanges (ranges : List (Nat × Nat)) (c : Char) : Bool :=
  ranges.any fun (lo, hi) => lo ≤ c.toNat && c.toNat ≤ hi

/-- Whether the ranges are ascending and each apart from the next. -/
def ascending (ranges : List (Nat × Nat)) : Bool :=
  (ranges.all fun (lo, hi) => lo ≤ hi) &&
    (ranges.zip ranges.tail).all fun (range, next) => range.2 + 1 < next.1

/-- The number of code points in ranges that are apart. -/
def rangesSize (ranges : List (Nat × Nat)) : Nat :=
  ranges.foldr (fun (lo, hi) size => hi + 1 - lo + size) 0

end Formula.Text
