/-
Formula/Operator.lean

The operators, each with its symbol, its rank and its meaning.

The ranks are unusual and deliberate: `^` and `%` stand on the same level as
`+` and `-`, and every operator groups to the left, so `2+3^2` is
`(2+3)^2`.  A sign binds more tightly than any binary operator.
-/
import Formula.Feature
import Formula.Name
import Formula.Binary64

namespace Formula

/-! ### Binary operators -/

/-- An operator between two operands. -/
inductive BinaryOp where
  | add
  | sub
  | mul
  | div
  | pow
  | mod
deriving DecidableEq, Repr

namespace BinaryOp

/-- The character that writes the operator. -/
def symbol : BinaryOp → Char
  | add => '+'
  | sub => '-'
  | mul => '*'
  | div => '/'
  | pow => '^'
  | mod => '%'

/-- How tightly the operator binds its operands. -/
def precedence : BinaryOp → Nat
  | add | sub | pow | mod => 2
  | mul | div => 3

/-- Whether equals group to the left; they all do. -/
def groupsLeft : BinaryOp → Bool := fun _ => true

/-- Whether `earlier` takes its right operand before `later`, which comes
after that operand, can take it as its left one. -/
def yieldsTo (earlier later : BinaryOp) : Bool :=
  later.precedence < earlier.precedence ||
    (earlier.precedence == later.precedence && later.groupsLeft)

/-- The feature that enables the operator. -/
def feature : BinaryOp → Feature
  | add => .addition
  | sub => .subtraction
  | mul => .multiplication
  | div => .division
  | pow => .exponentiation
  | mod => .modulus

/-- The operator that a byte writes. -/
def ofByte? : UInt8 → Option BinaryOp
  | Byte.plus => some add
  | Byte.minus => some sub
  | Byte.star => some mul
  | Byte.slash => some div
  | Byte.caret => some pow
  | Byte.percent => some mod
  | _ => none

/-- The meaning of the operator. -/
def apply : BinaryOp → Float → Float → Float
  | add, x, y => x + y
  | sub, x, y => x - y
  | mul, x, y => x * y
  | div, x, y => x / y
  | pow, x, y => x.pow y
  | mod, x, y => Binary64.remainder x y

end BinaryOp

/-! ### Signs -/

/-- A sign in front of an operand. -/
inductive UnaryOp where
  | plus
  | minus
deriving DecidableEq, Repr

namespace UnaryOp

/-- The character that writes the sign. -/
def symbol : UnaryOp → Char
  | plus => '+'
  | minus => '-'

/-- The feature that enables the sign. -/
def feature : UnaryOp → Feature
  | plus => .identity
  | minus => .negation

/-- The sign that a byte writes. -/
def ofByte? : UInt8 → Option UnaryOp
  | Byte.plus => some plus
  | Byte.minus => some minus
  | _ => none

/-- The meaning of the sign. -/
def apply : UnaryOp → Float → Float
  | plus, x => x
  | minus, x => -x

end UnaryOp

end Formula
