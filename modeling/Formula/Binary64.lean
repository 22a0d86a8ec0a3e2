/-
Formula/Binary64.lean

Double-precision numbers taken apart, and the operations on them that are
best done exactly.

A finite double is a sign and a magnitude `m * 2^q` with natural `m`.  Three
operations follow from that form on naturals alone:

* `remainder x y` is what is left of `x` after taking away the multiple of
  `y` nearest to it towards zero.  On a common power of two it is a
  remainder of naturals, and it has at most as many bits as the smaller of
  the two mantissas, so it is again a double.
* `cubeRoot x` is the double nearest to the cube root.  The magnitude is
  brought to a form whose root has as many bits as a mantissa and an exponent
  that three divides; the root is then the nearest natural.  There is no tie
  to break, because eight times a natural is never the cube of an odd one.
* `truncate` drops the fraction, towards zero.

`lesser` and `greater` choose between two numbers; a number is preferred to
a NaN.
-/

namespace Formula

/-- A magnitude `mantissa * 2 ^ exponent`. -/
structure Dyadic where
  mantissa : Nat
  exponent : Int
deriving DecidableEq, Repr

namespace Binary64

/-- Whether the sign bit is on. -/
def isNegative (x : Float) : Bool := x.toBits >>> 63 == 1

/-- The eleven bits that hold the exponent. -/
def exponentField (x : Float) : Nat := ((x.toBits >>> 52) &&& 0x7FF).toNat

/-- The fifty-two bits that hold the fraction. -/
def fractionField (x : Float) : Nat := (x.toBits &&& 0xFFFFFFFFFFFFF).toNat

/-- The magnitude of a finite double. -/
def magnitude (x : Float) : Dyadic :=
  if exponentField x = 0 then ⟨fractionField x, -1074⟩
  else ⟨Nat.pow 2 52 + fractionField x, (exponentField x : Int) - 1075⟩

/-- The double of a magnitude that is one, with a sign. -/
def ofMagnitude (negative : Bool) (d : Dyadic) : Float :=
  let x := (Float.ofNat d.mantissa).scaleB d.exponent
  if negative then -x else x

/-- The remainder of the division that rounds its quotient towards zero; it
has the sign of `x`. -/
def remainder (x y : Float) : Float :=
  if x.isNaN || y.isNaN || x.isInf || y == 0 then 0.0 / 0.0
  else if y.isInf then x
  else
    let a := magnitude x
    let b := magnitude y
    let q := min a.exponent b.exponent
    let scaled (d : Dyadic) : Nat := d.mantissa * Nat.pow 2 (d.exponent - q).toNat
    ofMagnitude (isNegative x) ⟨scaled a % scaled b, q⟩

/-- The greatest natural whose cube is at most `n`, if it has at most `bits`
bits: it is found a bit at a time, the root of `n / 8` first. -/
def cubeRootFloor : Nat → Nat → Nat
  | 0, _ => 0
  | bits + 1, n =>
    let r := 2 * cubeRootFloor bits (n / 8)
    if Nat.pow (r + 1) 3 ≤ n then r + 1 else r

/-- The cube root, correctly rounded. -/
def cubeRoot (x : Float) : Float :=
  if x.isNaN || x.isInf || x == 0 then x
  else
    let d := magnitude x
    let least : Int := 156 - d.mantissa.log2
    let shift := least + (d.exponent - least) % 3
    let n := d.mantissa * Nat.pow 2 shift.toNat
    ofMagnitude (isNegative x) ⟨(cubeRootFloor 54 (8 * n) + 1) / 2, (d.exponent - shift) / 3⟩

/-- The number without its fraction. -/
def truncate (x : Float) : Float := if isNegative x then x.ceil else x.floor

/-- The lesser of two numbers; a NaN only if both are. -/
def lesser (x y : Float) : Float :=
  if x.isNaN then y else if y.isNaN then x else if y < x then y else x

/-- The greater of two numbers; a NaN only if both are. -/
def greater (x y : Float) : Float :=
  if x.isNaN then y else if y.isNaN then x else if x < y then y else x

end Binary64

end Formula
