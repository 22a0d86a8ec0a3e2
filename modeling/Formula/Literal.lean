/-
Formula/Literal.lean

Number literals: their written form, how they are read and what they mean.

A literal is a mantissa, digits with at most one point among or around them
and at least one digit, and possibly an exponent: a marker `e` or `E`, a
sign that may be left out, and digits.

    literal  ::=  digit* [ '.' digit* ] [ ('e' | 'E') [ '+' | '-' ] digit+ ]

`Literal.read?` takes the longest literal off the front of a text.  Three
rules are worth spelling out.

* A marker that no exponent follows is not part of the literal: it stays,
  with a sign if there is one, in front of the rest.
* A point right after a literal, or right after a marker and sign that no
  digit follows, is refused rather than left for the next literal.
* A literal without any digit in its mantissa is refused.

The meaning of a literal is a sum and a product over its digits.  It is
stated for any `Arithmetic`, so that the same formula can be read in
binary floating point, where each operation rounds, and in exact fractions.
-/
import Formula.Name
import Formula.Error

namespace Formula

/-- The exponent of a literal as written: the marker `e` or `E`, the sign where one is
written, and the digits. -/
structure Exponent where
  marker : UInt8
  sign? : Option UInt8
  digits : Bytes
deriving DecidableEq, Repr

/-- A number literal as written: the digits before the point, those after it when there is a
point, and the exponent when there is one. -/
structure Literal where
  whole : Bytes
  fraction? : Option Bytes
  exponent? : Option Exponent
deriving DecidableEq, Repr

/-! ### Written form -/

namespace Exponent

/-- The bytes that the exponent is written with. -/
def bytes (x : Exponent) : Bytes := x.marker :: (x.sign?.toList ++ x.digits)

/-- Whether the exponent divides instead of multiplying. -/
def isNegative (x : Exponent) : Bool := x.sign? == some Byte.minus

end Exponent

namespace Literal

/-- The digits after the point, none if there is no point. -/
def fraction (l : Literal) : Bytes := l.fraction?.getD []

/-- The bytes of the mantissa. -/
def mantissaBytes (l : Literal) : Bytes :=
  l.whole ++ (match l.fraction? with | none => [] | some ds => Byte.point :: ds)

/-- The bytes that the literal is written with. -/
def bytes (l : Literal) : Bytes :=
  l.mantissaBytes ++ (match l.exponent? with | none => [] | some x => x.bytes)

/-- Whether the mantissa has a digit. -/
def hasDigit (l : Literal) : Bool := !(l.whole.isEmpty && l.fraction.isEmpty)

/-! ### Reading -/

/-- A byte that introduces an exponent. -/
def isMarker (b : UInt8) : Bool := b == 101 || b == 69

/-- A sign of an exponent. -/
def isSign (b : UInt8) : Bool := b == Byte.plus || b == Byte.minus

/-- The digits at the front of a text, and the rest. -/
def readDigits (bs : Bytes) : Bytes × Bytes :=
  (bs.takeWhile Byte.isDigit, bs.dropWhile Byte.isDigit)

/-- The mantissa at the front of a text, as a literal without exponent, and
the rest. -/
def readMantissa (bs : Bytes) : Literal × Bytes :=
  match readDigits bs with
  | (whole, Byte.point :: rest) =>
    let (fraction, rest) := readDigits rest
    (⟨whole, some fraction, none⟩, rest)
  | (whole, rest) => (⟨whole, none, none⟩, rest)

/-- The sign at the front of a text, if there is one, and the rest. -/
def readSign : Bytes → Option UInt8 × Bytes
  | b :: rest => if isSign b then (some b, rest) else (none, b :: rest)
  | [] => (none, [])

/-- The exponent that a text starts with, and the rest.  The digits may be
missing. -/
def readExponent? : Bytes → Option (Exponent × Bytes)
  | b :: rest =>
    if isMarker b then
      let (sign?, rest) := readSign rest
      let (digits, rest) := readDigits rest
      some (⟨b, sign?, digits⟩, rest)
    else none
  | [] => none

/-- The literal at the front of a text and the rest of the text, or `none`
where the text is refused.  Exponents are read only on demand. -/
def read? (scientific : Bool) (bs : Bytes) : Option (Literal × Bytes) :=
  let (mantissa, rest) := readMantissa bs
  if !mantissa.hasDigit then none
  else match if scientific then readExponent? rest else none with
    | none => if rest.head? == some Byte.point then none else some (mantissa, rest)
    | some (x, after) =>
      if after.head? == some Byte.point then none
      else if x.digits.isEmpty then some (mantissa, rest)
      else some ({ mantissa with exponent? := some x }, after)

/-! ### What is read is what stands there -/

theorem readDigits_append (bs : Bytes) : (readDigits bs).1 ++ (readDigits bs).2 = bs :=
  List.takeWhile_append_dropWhile

/-- A mantissa and the rest make up the text. -/
theorem readMantissa_append (bs : Bytes) :
    (readMantissa bs).1.bytes ++ (readMantissa bs).2 = bs := by
  have h := readDigits_append bs
  unfold readMantissa
  split
  · next whole rest heq =>
    have h' := readDigits_append rest
    simp_all [bytes, mantissaBytes]
  · next whole rest _ heq => simp_all [bytes, mantissaBytes]

theorem readSign_append (bs : Bytes) : (readSign bs).1.toList ++ (readSign bs).2 = bs := by
  unfold readSign
  split
  · split <;> simp
  · rfl

/-- An exponent is a marker, perhaps a sign, and the digits that follow. -/
theorem readExponent?_eq_some {bs rest : Bytes} {x : Exponent}
    (h : readExponent? bs = some (x, rest)) :
    ∃ tail, bs = x.marker :: tail ∧ isMarker x.marker = true ∧ x.sign? = (readSign tail).1 ∧
      x.digits = (readDigits (readSign tail).2).1 ∧ rest = (readDigits (readSign tail).2).2 := by
  unfold readExponent? at h
  split at h
  · next b tail =>
    split at h
    · next hmarker =>
      obtain ⟨rfl, rfl⟩ := Prod.mk.inj (Option.some.inj h)
      exact ⟨tail, rfl, hmarker, rfl, rfl, rfl⟩
    · cases h
  · cases h

/-- An exponent and the rest make up the text. -/
theorem readExponent?_append {bs r : Bytes} {x : Exponent}
    (h : readExponent? bs = some (x, r)) : x.bytes ++ r = bs := by
  obtain ⟨tail, rfl, -, hsign, hdigits, rfl⟩ := readExponent?_eq_some h
  simp [Exponent.bytes, hsign, hdigits, readDigits_append, readSign_append]

/-- A mantissa is read without an exponent. -/
theorem readMantissa_exponent? (bs : Bytes) : (readMantissa bs).1.exponent? = none := by
  unfold readMantissa
  split <;> rfl

/-- A mantissa with an exponent behind it. -/
def withExponent (m : Literal) (x : Exponent) : Literal := { m with exponent? := some x }

theorem bytes_withExponent {m : Literal} (h : m.exponent? = none) (x : Exponent) :
    (m.withExponent x).bytes = m.bytes ++ x.bytes := by
  simp [withExponent, bytes, mantissaBytes, h]

/-- A literal is a mantissa with a digit, or such a mantissa with an exponent. -/
theorem read?_eq_some {scientific : Bool} {bs rest : Bytes} {l : Literal}
    (h : read? scientific bs = some (l, rest)) :
    ∃ m tail, readMantissa bs = (m, tail) ∧ m.hasDigit = true ∧
      (l = m ∧ rest = tail ∨ scientific = true ∧ ∃ x, readExponent? tail = some (x, rest) ∧
        x.digits ≠ [] ∧ l = m.withExponent x) := by
  unfold read? at h
  rcases hm : readMantissa bs with ⟨m, tail⟩
  rw [hm] at h
  dsimp only at h
  split at h
  · cases h
  next hdigit =>
  refine ⟨m, tail, rfl, by simpa using hdigit, ?_⟩
  split at h
  · split at h
    · cases h
    · obtain ⟨rfl, rfl⟩ := Prod.mk.inj (Option.some.inj h)
      exact .inl ⟨rfl, rfl⟩
  next x after hexp =>
  split at h
  · cases h
  split at h
  · -- a marker without digits is left where it is
    obtain ⟨rfl, rfl⟩ := Prod.mk.inj (Option.some.inj h)
    exact .inl ⟨rfl, rfl⟩
  · next hdigits =>
    obtain ⟨rfl, rfl⟩ := Prod.mk.inj (Option.some.inj h)
    cases scientific with
    | false => cases hexp
    | true => exact .inr ⟨rfl, x, hexp, by simpa using hdigits, rfl⟩

/-- A literal and the rest make up the text, and the literal has a digit. -/
theorem read?_append {scientific : Bool} {bs rest : Bytes} {l : Literal}
    (h : read? scientific bs = some (l, rest)) : l.bytes ++ rest = bs ∧ l.hasDigit := by
  obtain ⟨m, tail, hm, hdigit, hcases⟩ := read?_eq_some h
  have happend := readMantissa_append bs
  have hnone := readMantissa_exponent? bs
  rw [hm] at happend hnone
  rcases hcases with ⟨rfl, rfl⟩ | ⟨-, x, hx, -, rfl⟩
  · exact ⟨happend, hdigit⟩
  · refine ⟨?_, hdigit⟩
    rw [bytes_withExponent hnone, List.append_assoc, readExponent?_append hx]
    exact happend

/-- A literal with a digit is written with at least one byte. -/
theorem bytes_ne_nil {l : Literal} (h : l.hasDigit) : l.bytes ≠ [] := by
  intro hb
  simp only [bytes, mantissaBytes, List.append_eq_nil_iff] at hb
  obtain ⟨⟨hw, hf⟩, -⟩ := hb
  cases hfr : l.fraction? with
  | none => simp [hasDigit, fraction, hw, hfr] at h
  | some ds => simp [hfr] at hf

/-- The rest behind a literal is shorter than the text. -/
theorem length_of_read? {scientific : Bool} {bs rest : Bytes} {l : Literal}
    (h : read? scientific bs = some (l, rest)) : rest.length < bs.length := by
  obtain ⟨happ, hd⟩ := read?_append h
  have hpos := List.length_pos_iff.mpr (bytes_ne_nil hd)
  rw [← happ, List.length_append]
  omega

end Literal

/-! ### Meaning -/

/-- What the meaning of a literal is computed with.  `ofNat` gives the numbers of the digits
and the other small numbers in the rules, and `pow` takes the base first. -/
structure Arithmetic (α : Type) where
  ofNat : Nat → α
  tenth : α
  add : α → α → α
  mul : α → α → α
  div : α → α → α
  pow : α → α → α

/-- Binary floating point of double precision: each operation rounds. -/
def Arithmetic.float : Arithmetic Float where
  ofNat := Float.ofNat
  tenth := 0.1
  add := (· + ·)
  mul := (· * ·)
  div := (· / ·)
  pow := Float.pow

namespace Literal

section Meaning

variable {α : Type} (A : Arithmetic α)

/-- The number that digits write when they continue the number `start`. -/
def continueNumber (start : α) (ds : Bytes) : α :=
  ds.foldl (fun v d => A.add (A.mul v (A.ofNat 10)) (A.ofNat (Byte.digitValue d))) start

/-- The number that digits write. -/
def number (ds : Bytes) : α := continueNumber A (A.ofNat 0) ds

/-- The number `start` with the digits of a fraction added, each over the
power of ten of its place; `place` is the power of the first one. -/
def addFraction (start place : α) : Bytes → α
  | [] => start
  | d :: ds =>
    addFraction (A.add start (A.div (A.ofNat (Byte.digitValue d)) place))
      (A.mul place (A.ofNat 10)) ds

/-- The number that the mantissa writes. -/
def mantissa (l : Literal) : α := addFraction A (number A l.whole) (A.ofNat 10) l.fraction

/-- The factor that the exponent stands for: a power of ten, or of a tenth
when the exponent is negative. -/
def exponentFactor (x : Exponent) : α :=
  A.pow (if x.isNegative then A.tenth else A.ofNat 10) (number A x.digits)

/-- The number that a literal denotes. -/
def value (l : Literal) : α :=
  match l.exponent? with
  | none => l.mantissa A
  | some x => A.mul (l.mantissa A) (exponentFactor A x)

end Meaning

/-- The value of the literal at position `start` of a text, in floating
point, and the position just after it. -/
def readAt (scientific : Bool) (bs : Bytes) (start : Nat) : Except Error (Float × Nat) :=
  match read? scientific (bs.drop start) with
  | none => .error .malformed
  | some (l, _) => .ok (l.value Arithmetic.float, start + l.bytes.length)

end Literal

end Formula
