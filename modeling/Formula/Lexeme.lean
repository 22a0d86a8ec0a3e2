/-
Formula/Lexeme.lean

The words of a formula.

`Lexeme.read` takes one word, or one blank, off the front of a text that is
not empty, and `lex` repeats it to the end of the text.  Neither of them
looks at the words before, so the words of a text are the same wherever it
stands.  Two things about the text survive in them:

* a name tells whether a parenthesis follows it immediately, since only then
  can it be called;
* a refused literal is a word of its own and the last one, because nothing
  says where it would end.
-/
import Formula.Literal

namespace Formula

/-- A word of a formula.  `badLiteral` stands for bytes that start like a literal and are
none, a name says whether the next byte is a left parenthesis, and the operators are among
the other bytes. -/
inductive Lexeme where
  | literal (l : Literal)
  | badLiteral
  | name (word : Bytes) (opensCall : Bool)
  | leftParen
  | rightParen
  | comma
  | other (byte : UInt8)
deriving DecidableEq, Repr

namespace Lexeme

/-- The word of a single byte that starts neither a literal nor a name and
is no blank. -/
def ofByte : UInt8 → Lexeme
  | Byte.leftParen => leftParen
  | Byte.rightParen => rightParen
  | Byte.comma => comma
  | b => other b

/-- The first word of the text `b :: bs` and the text after it.  A blank is
taken off without giving a word. -/
def read (scientific : Bool) (b : UInt8) (bs : Bytes) : Option Lexeme × Bytes :=
  if b = Byte.blank then (none, bs)
  else if Byte.startsLiteral b then
    match Literal.read? scientific (b :: bs) with
    | some (l, rest) => (some (literal l), rest)
    | none => (some badLiteral, [])
  else if Byte.startsName b then
    let (tail, rest) := Name.split bs
    (some (name (b :: tail) (rest.head? == some Byte.leftParen)), rest)
  else (some (ofByte b), bs)

/-- Reading a word always shortens the text. -/
theorem length_read_le (scientific : Bool) (b : UInt8) (bs : Bytes) :
    (read scientific b bs).2.length ≤ bs.length := by
  unfold read
  split
  · exact Nat.le_refl _
  · split
    · split
      · next l rest h => exact Nat.le_of_lt_succ (Literal.length_of_read? h)
      · exact Nat.zero_le _
    · split
      · exact (List.dropWhile_suffix Byte.continuesName).length_le
      · exact Nat.le_refl _

end Lexeme

/-- The words of a text. -/
def lex (scientific : Bool) : Bytes → List Lexeme
  | [] => []
  | b :: bs =>
    (Lexeme.read scientific b bs).1.toList ++ lex scientific (Lexeme.read scientific b bs).2
termination_by bs => bs.length
decreasing_by exact Nat.lt_succ_of_le (Lexeme.length_read_le scientific b bs)

end Formula
