/-
Formula/Decimal/Notation.lean

How a number is written.

Every number is written positionally, whatever its size: as many digits as
identify it, with zeros between them and the point where they are needed,
without a point when it is whole.  A zero keeps its sign; the infinities are
`inf` and `-inf`, and a NaN is `NaN` without a sign.
-/
import Formula.Decimal.Shortest

namespace Formula

namespace Decimal

/-- The decimal written out, with a point only before a fraction. -/
def positional (d : Decimal) : String :=
  let ds := Nat.toDigits 10 d.digits
  let places := (-d.exponent).toNat
  if places = 0 then String.ofList (ds ++ List.replicate d.exponent.toNat '0')
  else
    let padded := List.replicate (places + 1 - ds.length) '0' ++ ds
    let whole := padded.length - places
    String.ofList (padded.take whole ++ '.' :: padded.drop whole)

end Decimal

/-- The written form of a number. -/
def numberText (x : Float) : String :=
  if x.isNaN then "NaN"
  else
    let sign := if Binary64.isNegative x then "-" else ""
    if x.isInf then sign ++ "inf"
    else if x == 0 then sign ++ "0"
    else sign ++ (Decimal.shortest (.ofFloat x)).positional

end Formula
