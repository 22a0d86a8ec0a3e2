/-
Formula/Decimal/Shortest.lean

The fewest decimal digits that identify a double.

The reals that round to a double form an interval: from halfway to the
neighbour below to halfway to the neighbour above, ends included exactly
when the mantissa is even.  Just above a power of two the neighbour below is
half as far away.  On the quarter grid `2^(q-2)` the value and both ends are
whole numbers, so whether a decimal lies in the interval is a comparison of
naturals (`Rounding.admits`).

`shortest` tries the decimals with one significant digit, then with two, and
so on.  On each such grid only the two neighbours of the value are of
interest: if any point of the grid lies in the interval, one of them does.
The first grid with a hit wins; of two hits the nearer one, and the upper
one when both are equally near.
-/
import Formula.Binary64

namespace Formula

/-- The number `digits * 10 ^ exponent`. -/
structure Decimal where
  digits : Nat
  exponent : Int
deriving DecidableEq, Repr

namespace Decimal

/-- A magnitude with the interval of the reals that round to it.  The interval is narrow
below where the double below is half as far away as the one above. -/
structure Rounding where
  value : Dyadic
  narrowBelow : Bool
deriving DecidableEq, Repr

namespace Rounding

/-- The rounding interval of a finite double. -/
def ofFloat (x : Float) : Rounding :=
  ⟨Binary64.magnitude x, Binary64.fractionField x == 0 && 1 < Binary64.exponentField x⟩

/-- The value in quarters of the last place. -/
def quarters (r : Rounding) : Nat := 4 * r.value.mantissa

/-- The lower end of the interval, in quarters. -/
def lower (r : Rounding) : Nat := if r.narrowBelow then r.quarters - 1 else r.quarters - 2

/-- The upper end of the interval, in quarters. -/
def upper (r : Rounding) : Nat := r.quarters + 2

/-- Whether the ends belong to the interval. -/
def closed (r : Rounding) : Bool := r.value.mantissa % 2 == 0

/-- One quarter of the last place and one unit of the grid `10 ^ g`, as
naturals with a common factor. -/
def scales (r : Rounding) (g : Int) : Nat × Nat :=
  let s := r.value.exponent - 2
  (Nat.pow 2 s.toNat * Nat.pow 10 (-g).toNat, Nat.pow 2 (-s).toNat * Nat.pow 10 g.toNat)

/-- Whether `n` units of the grid `10 ^ g` round to the value. -/
def admits (r : Rounding) (g : Int) (n : Nat) : Bool :=
  let (quarter, unit) := r.scales g
  if r.closed then r.lower * quarter ≤ n * unit && n * unit ≤ r.upper * quarter
  else r.lower * quarter < n * unit && n * unit < r.upper * quarter

/-- The point of the grid `10 ^ g` that stands for the value, if one does. -/
def onGrid? (r : Rounding) (g : Int) : Option Decimal :=
  let (quarter, unit) := r.scales g
  let v := r.quarters * quarter
  let n := v / unit
  match r.admits g n, r.admits g (n + 1) with
  | false, false => none
  | true, false => some ⟨n, g⟩
  | false, true => some ⟨n + 1, g⟩
  | true, true => if 2 * v < (2 * n + 1) * unit then some ⟨n, g⟩ else some ⟨n + 1, g⟩

/-- The least `k` for which the value lies below `10 ^ k`.  Three hundred and
fifty places make a whole number of at least one of every positive double. -/
def scale (r : Rounding) : Int :=
  let (quarter, unit) := r.scales (-350)
  ((Nat.toDigits 10 (r.quarters * quarter / unit)).length : Int) - 350

/-- The value itself, as a decimal. -/
def exact (r : Rounding) : Decimal :=
  let q := r.value.exponent
  ⟨r.value.mantissa * Nat.pow 2 q.toNat * Nat.pow 5 (-q).toNat, min q 0⟩

end Rounding

/-- The decimal without the zeros at its end. -/
def stripZeros (d : Decimal) : Decimal :=
  if d.digits ≠ 0 ∧ d.digits % 10 = 0 then stripZeros ⟨d.digits / 10, d.exponent + 1⟩ else d
termination_by d.digits
decreasing_by omega

/-- The decimal with the fewest digits that rounds to a positive value. -/
def shortest (r : Rounding) : Decimal :=
  let k := r.scale
  stripZeros (((List.range 17).findSome? fun n : Nat => r.onGrid? (k - 1 - n)).getD r.exact)

end Decimal

end Formula
