/-
Formula/Text/Quoted.lean

Texts in double quotes.

A quote and a backslash are written behind a backslash, the common control
characters with a letter and the other characters that do not show by
themselves with their code in hexadecimal.  Every other character stands for
itself.
-/
import Formula.Text.Hidden

namespace Formula.Text

/-- The written form of one character inside double quotes. -/
def quotedChar (c : Char) : List Char :=
  match c with
  | '"' => ['\\', '"']
  | '\\' => ['\\', '\\']
  | '\n' => ['\\', 'n']
  | '\r' => ['\\', 'r']
  | '\t' => ['\\', 't']
  | '\x00' => ['\\', '0']
  | c =>
    if isHidden c then
      ['\\', 'u', '\x7b'] ++ Nat.toDigits 16 c.toNat ++ ['\x7d']
    else [c]

/-- The text in double quotes. -/
def quoted (s : String) : String :=
  String.ofList ('"' :: s.toList.flatMap quotedChar ++ ['"'])

end Formula.Text
