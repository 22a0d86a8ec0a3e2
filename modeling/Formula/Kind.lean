/-
Formula/Kind.lean

What may stand after what.

Whether an operand, a sign or a binary operator may come next depends on the
word before it alone, and only on its kind.  An operand starts where one is
expected, a sign where one is allowed, and a binary operator follows a
complete operand.
A sign may not follow a binary operator, so signs are allowed in fewer
places than operands; a complete operand never leaves another one expected,
so no operand follows an operand without an operator between them.
-/

namespace Formula

/-- The kind of the word before; `start` says that there is none. -/
inductive Kind where
  | start
  | leftParen
  | rightParen
  | comma
  | literal
  | const
  | var
  | func
  | binary
  | sign
deriving DecidableEq, Repr, Inhabited

namespace Kind

/-- The published name of a kind; a literal is a constant. -/
def name : Kind → String
  | start => "None"
  | leftParen => "LeftParen"
  | rightParen => "RightParen"
  | comma => "Comma"
  | literal | const => "Constant"
  | var => "Variable"
  | func => "Function"
  | binary => "BinaryOperator"
  | sign => "UnaryOperator"

/-- Whether an operand is expected next. -/
def expectsOperand : Kind → Bool
  | start | leftParen | comma | binary | sign => true
  | rightParen | literal | const | var | func => false

/-- Whether a sign is allowed next. -/
def allowsSign : Kind → Bool
  | start | leftParen | comma | sign => true
  | rightParen | literal | const | var | func | binary => false

/-- Whether a complete operand ends here. -/
def endsOperand : Kind → Bool
  | rightParen | literal | const | var => true
  | start | leftParen | comma | func | binary | sign => false

end Kind

end Formula
