/-
Formula/Name.lean

Bytes, the classes of bytes that formulas are made of, and names.

A formula is a text in UTF-8, but its grammar uses ASCII alone, so it is
read byte by byte and a position is a number of bytes.  A byte of a longer
character belongs to none of the classes below and is never part of a
literal or of a name.

A name is valid when it is not empty, starts with a byte that may start a
name and continues with bytes that may continue one.  The longest run of
such bytes is what the reader of formulas takes for a name, so the names
that can be read and the names that can be bound are the same.
-/

namespace Formula

/-- A text as its bytes. -/
abbrev Bytes := List UInt8

/-- The UTF-8 bytes of a text. -/
def Bytes.ofString (s : String) : Bytes := s.toUTF8.toList

/-- The text that the bytes encode, when they are well-formed UTF-8. -/
def Bytes.toString? (bs : Bytes) : Option String := String.fromUTF8? ⟨bs.toArray⟩

namespace Byte

/-! ### Single bytes -/

/-- The blank. -/
@[match_pattern] abbrev blank : UInt8 := 32

/-- The byte `(`. -/
@[match_pattern] abbrev leftParen : UInt8 := 40

/-- The byte `)`. -/
@[match_pattern] abbrev rightParen : UInt8 := 41

/-- The byte `*`. -/
@[match_pattern] abbrev star : UInt8 := 42

/-- The byte `+`. -/
@[match_pattern] abbrev plus : UInt8 := 43

/-- The byte `,`. -/
@[match_pattern] abbrev comma : UInt8 := 44

/-- The byte `-`. -/
@[match_pattern] abbrev minus : UInt8 := 45

/-- The byte `.`. -/
@[match_pattern] abbrev point : UInt8 := 46

/-- The byte `/`. -/
@[match_pattern] abbrev slash : UInt8 := 47

/-- The byte `%`. -/
@[match_pattern] abbrev percent : UInt8 := 37

/-- The byte `^`. -/
@[match_pattern] abbrev caret : UInt8 := 94

/-- The byte `_`. -/
@[match_pattern] abbrev underscore : UInt8 := 95

/-! ### Classes of bytes -/

/-- An ASCII digit. -/
def isDigit (b : UInt8) : Bool := 48 ≤ b && b ≤ 57

/-- An ASCII letter. -/
def isLetter (b : UInt8) : Bool := (65 ≤ b && b ≤ 90) || (97 ≤ b && b ≤ 122)

/-- A byte that may start a number literal: a digit or a point. -/
def startsLiteral (b : UInt8) : Bool := isDigit b || b == point

/-- A byte that may start a name: a letter or an underscore. -/
def startsName (b : UInt8) : Bool := isLetter b || b == underscore

/-- A byte that may continue a name: a letter, a digit or an underscore. -/
def continuesName (b : UInt8) : Bool := isLetter b || isDigit b || b == underscore

/-- The number that a digit stands for. -/
def digitValue (b : UInt8) : Nat := b.toNat - 48

end Byte

namespace Name

/-- The bytes at the front of a text that a name may be continued with, and
the rest of the text. -/
def split (bs : Bytes) : Bytes × Bytes :=
  (bs.takeWhile Byte.continuesName, bs.dropWhile Byte.continuesName)

/-- The position just after the name that starts at `start`. -/
def endOfNameAt (bs : Bytes) (start : Nat) : Nat := start + (split (bs.drop start)).1.length

/-- Whether a text may be bound as a name: it is not empty, its first byte
is no digit and all its bytes may continue a name. -/
def isValid : Bytes → Bool
  | [] => false
  | b :: bs => !Byte.isDigit b && (b :: bs).all Byte.continuesName

end Name

end Formula
