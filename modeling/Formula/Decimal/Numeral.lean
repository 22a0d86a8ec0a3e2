/-
Formula/Decimal/Numeral.lean

Numbers read from a text of their own, as in `x = 1.5`.

    numeral  ::=  [ '+' | '-' ] ( 'inf' | 'infinity' | 'nan' | decimal )
    decimal  ::=  digit* [ '.' digit* ] [ ('e' | 'E') [ '+' | '-' ] digit+ ]

with at least one digit before the exponent and the words in any case.  The
whole text must be a numeral.  Unlike a literal inside a formula, a numeral
has the double nearest to what it writes, an infinity when that is too
large.
-/

namespace Formula

/-- Why a text is no numeral. -/
inductive NumeralError where
  | empty
  | invalid
deriving DecidableEq, Repr, Inhabited

/-- The wording of each cause. -/
def NumeralError.message : NumeralError → String
  | .empty => "cannot parse float from empty string"
  | .invalid => "invalid float literal"

namespace Numeral

/-- The number that decimal digits write, most significant first. -/
def natOfDigits (ds : List Char) : Nat := ds.foldl (fun n d => 10 * n + (d.toNat - 48)) 0

/-- The sign at the front of a text, `true` for a minus, and the rest. -/
def splitSign : List Char → Bool × List Char
  | '-' :: rest => (true, rest)
  | '+' :: rest => (false, rest)
  | rest => (false, rest)

/-- The double nearest to `digits * 10 ^ exponent`.  Outside the given bounds
it is an infinity or zero, whatever the digits are, and no power of ten has
to be computed. -/
def nearest (digits : Nat) (exponent : Int) : Float :=
  let magnitude := ((Nat.toDigits 10 digits).length : Int) + exponent
  if digits = 0 || magnitude < -330 then 0.0
  else if 330 < magnitude then 1.0 / 0.0
  else Float.ofScientific digits (exponent < 0) exponent.natAbs

/-- The exponent that the end of a decimal writes, zero when it is missing. -/
def readExponent? : List Char → Option Int
  | [] => some 0
  | c :: rest =>
    if c = 'e' || c = 'E' then
      let (negative, ds) := splitSign rest
      if ds.isEmpty || !ds.all Char.isDigit then none
      else some (if negative then -(natOfDigits ds : Int) else natOfDigits ds)
    else none

/-- The number that a decimal without a sign writes. -/
def readDecimal? (cs : List Char) : Option Float :=
  let (whole, rest) := cs.span Char.isDigit
  let (fraction, rest) := match rest with
    | '.' :: rest => rest.span Char.isDigit
    | rest => ([], rest)
  if whole.isEmpty && fraction.isEmpty then none
  else (readExponent? rest).map fun e =>
    nearest (natOfDigits (whole ++ fraction)) (e - fraction.length)

/-- The number that a numeral without its sign writes. -/
def readMagnitude? (cs : List Char) : Option Float :=
  let word := String.ofList (cs.map Char.toLower)
  if word = "inf" || word = "infinity" then some (1.0 / 0.0)
  else if word = "nan" then some (0.0 / 0.0)
  else readDecimal? cs

/-- The number that a text writes. -/
def read (cs : List Char) : Except NumeralError Float :=
  if cs.isEmpty then .error .empty
  else
    let (negative, rest) := splitSign cs
    match readMagnitude? rest with
    | none => .error .invalid
    | some x => .ok (if negative then -x else x)

end Numeral

end Formula
