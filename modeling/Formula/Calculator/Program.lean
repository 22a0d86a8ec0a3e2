/-
Formula/Calculator/Program.lean

The calculator as a whole: from its arguments and its input to what it
prints and the code that it ends with.

With a formula among the arguments it prints the value and ends.  Without
one it reads lines, each after a prompt, and goes on after a complaint; it
ends with its input, or at a line that is no text.  Code two is for
arguments that are refused, code one for a failure before the first line is
read.
-/
import Formula.Calculator.Session

namespace Formula.Calculator

/-- What a run prints on the two outputs, and the code that it ends with. -/
structure Outcome where
  code : UInt32 := 0
  stdout : String := ""
  stderr : String := ""
deriving DecidableEq, Repr

namespace Outcome

/-- One outcome after another; the code is that of the second. -/
def andThen (a b : Outcome) : Outcome := ⟨b.code, a.stdout ++ b.stdout, a.stderr ++ b.stderr⟩

/-- The outcome of a failure. -/
def failure (code : UInt32) (complaint : String) : Outcome := { code, stderr := complaint ++ "\n" }

end Outcome

/-- What an answer prints. -/
def Answer.outcome : Answer → Outcome
  | silence => {}
  | value x => { stdout := numberText x ++ "\n" }
  | complaint text => { stderr := text ++ "\n" }

/-- What is printed before a line is read. -/
def prompt : String := "> "

/-- The complaint about a line that is no text. -/
def unreadable : String := "Failed to read the input: stream did not contain valid UTF-8"

/-- The lines of an input without the newlines that end them. -/
def splitLines : Bytes → List Bytes
  | [] => []
  | 10 :: rest => [] :: splitLines rest
  | b :: rest =>
    match splitLines rest with
    | [] => [[b]]
    | line :: lines => (b :: line) :: lines

/-- Reads lines and answers them. -/
def Session.converse (s : Session) : List Bytes → Outcome
  | [] => { stdout := prompt }
  | line :: lines =>
    let asked : Outcome := { stdout := prompt }
    match line.toString? with
    | none => asked.andThen { stderr := unreadable ++ "\n" }
    | some text =>
      let (s, answer) := s.step text
      (asked.andThen answer.outcome).andThen (s.converse lines)

/-- What a single formula gives; here a complaint is a failure. -/
def Session.answerOnce (s : Session) (formula : String) : Outcome :=
  let (_, answer) := s.calculate formula
  match answer with
  | .complaint text => .failure 1 text
  | answer => answer.outcome

/-- A run of the calculator. -/
def run (arguments : List String) (input : Bytes) : Outcome :=
  match Options.read arguments with
  | .error refusal => .failure 2 s!"error: {refusal.message}"
  | .ok o =>
    match Session.start o with
    | .error complaint => .failure 1 complaint
    | .ok s =>
      match o.formula? with
      | some formula => s.answerOnce formula
      | none => s.converse (splitLines input)

end Formula.Calculator
