/-
Formula/Main.lean

The command `calculate`: a session whose answers are printed as the lines
come in.
-/
import Formula.Calculator.Program

namespace Formula.Calculator.Command

/-- Prints what an outcome prints, and passes its code on. -/
def report (outcome : Outcome) : IO UInt32 := do
  let stdout ← IO.getStdout
  stdout.putStr outcome.stdout
  stdout.flush
  IO.eprint outcome.stderr
  return outcome.code

/-- The bytes of the next line with the newline that ends it, none at the end
of the input. -/
partial def readLine (stdin : IO.FS.Stream) (line : Array UInt8) : IO (Array UInt8) := do
  let chunk ← stdin.read 1
  match chunk.toList with
  | [] => return line
  | b :: _ => if b = 10 then return line.push b else readLine stdin (line.push b)

/-- Asks for lines and answers them. -/
partial def converse (stdin : IO.FS.Stream) (s : Session) : IO UInt32 := do
  discard <| report { stdout := prompt }
  let line ← readLine stdin #[]
  if line.isEmpty then return 0
  match (Bytes.toString? line.toList : Option String) with
  | none => report { stderr := unreadable ++ "\n" }
  | some text =>
    let (s, answer) := s.step text
    discard <| report answer.outcome
    converse stdin s

/-- Does what the arguments ask for. -/
def execute (arguments : List String) : IO UInt32 := do
  match Options.read arguments with
  | .error refusal => report (.failure 2 s!"error: {refusal.message}")
  | .ok o =>
    match Session.start o with
    | .error complaint => report (.failure 1 complaint)
    | .ok s =>
      match o.formula? with
      | some formula => report (s.answerOnce formula)
      | none => converse (← IO.getStdin) s

end Formula.Calculator.Command

/-- The command. -/
def main (arguments : List String) : IO UInt32 := Formula.Calculator.Command.execute arguments
