/-
Formula/Calculator/Session.lean

A session of the calculator: what it is started with and what each line does.

Only an assignment to a variable that was bound at the start changes
anything, and all it changes is the number in that variable's cell.  Every
line with an equals sign is an assignment, so it is never evaluated, and
every other line that is not blank is a formula.
-/
import Formula.Calculator.Options
import Formula.Cells
import Formula.Decimal.Notation
import Formula.Scan
import Formula.Standard

namespace Formula.Calculator

/-- What the calculator says in answer to a line: nothing, the value of a formula, or a
complaint. -/
inductive Answer where
  | silence
  | value (x : Float)
  | complaint (text : String)

/-- A calculator ready for formulas.  `bound` lists the names that may be assigned to, and
`cells` holds their values. -/
structure Session where
  context : Context Cells
  bound : List String
  cells : Cells

namespace Session

/-! ### Start -/

/-- The session with another variable. -/
def bind (s : Session) (b : Binding) : Except String Session :=
  match s.context.add (Bytes.ofString b.name) (.var (Cells.read b.name)) with
  | .ok context => .ok ⟨context, b.name :: s.bound, s.cells.set b.name b.value⟩
  | .error e => .error s!"Failed to bind variable '{b.name}': {e.message}"

/-- The session without variables. -/
def base (o : Options) : Except String Session :=
  let C : Context Cells := .empty o.features
  if o.wantsStandard then
    match C.register with
    | (C, .ok ()) => .ok ⟨C, [], .zero⟩
    | (_, .error e) => .error s!"Failed to register the built-in functions: {e.message}"
  else .ok ⟨C, [], .zero⟩

/-- The session that options ask for, or the complaint that prevents it. -/
def start (o : Options) : Except String Session := do o.bindings.foldlM bind (← base o)

/-! ### Lines -/

/-- Answers a formula. -/
def calculate (s : Session) (text : String) : Session × Answer :=
  match (s.context.evaluate (Bytes.ofString text)).run s.cells with
  | (.ok x, cells) => ({ s with cells }, .value x)
  | (.error e, cells) =>
    ({ s with cells }, .complaint s!"Failed to evaluate the expression: {e.message}")

/-- Answers an assignment. -/
def assign (s : Session) (name value : List Char) : Session × Answer :=
  let name := String.ofList name
  if !s.bound.contains name then (s, .complaint s!"Unknown variable '{name}'")
  else
    match Numeral.read value with
    | .ok x => ({ s with cells := s.cells.set name x }, .silence)
    | .error e => (s, .complaint s!"Failed to parse the value: {e.message}")

/-- Answers a line. -/
def step (s : Session) (line : String) : Session × Answer :=
  let line := Text.trim line.toList
  if line.isEmpty then (s, .silence)
  else
    match splitAssignment? line with
    | some (name, value) => s.assign name value
    | none => s.calculate (String.ofList line)

end Session

end Formula.Calculator
