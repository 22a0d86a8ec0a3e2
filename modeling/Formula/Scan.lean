/-
Formula/Scan.lean

From the words of a formula to its postfix form, in one pass.

The pass keeps what it has not placed yet on a stack: operators whose right
operand is still being read, and for every open parenthesis a mark, with the
function below it when the parenthesis opens a call.  Operands go to the
output at once.  A binary operator first sends the operators there that take
their right operand before it; a right parenthesis sends everything above
the mark that it closes.

The number of arguments of the innermost open call is counted while it is
read: the first operand makes it one and every comma adds one.  An inner
call saves the counter of the outer one.

Every word is checked against the kind of the word before (`Kind`) when its
turn comes, so the pass stops at the first word that is out of place.  With
implicit parentheses a right parenthesis may close one that was never opened,
and the end of the text closes those that are still open.

`Context.compile` is the whole pass, `Context.evaluate` runs what it gives.
-/
import Formula.Context
import Formula.Kind
import Formula.Lexeme
import Formula.Postfix

namespace Formula

variable {σ : Type}

/-! ### The state of the pass -/

/-- What waits to be placed: an open parenthesis, a function whose arguments are being read,
or an operator whose operand is being read. -/
inductive Pending (σ : Type) where
  | paren
  | func (call : List Float → Eval σ Float)
  | sign (op : UnaryOp)
  | binary (op : BinaryOp)

/-- The state of the pass: the kind of the last word, what waits to be placed, and the items
placed so far.  `arity` counts the arguments of the innermost open call that have been
begun, `saved` holds the counters of the calls around it, and `arities` the numbers of
arguments of the calls placed so far.  Every list has the latest or innermost first. -/
structure Scan (σ : Type) where
  last : Kind := .start
  stack : List (Pending σ) := []
  output : List (Item σ) := []
  arity : Nat := 0
  saved : List Nat := []
  arities : List Nat := []

namespace Pending

/-- Moves the operators at the top of a stack to the output that take their
right operand before `op`.  A sign always does. -/
def release (op : BinaryOp) : List (Pending σ) → List (Item σ) → List (Pending σ) × List (Item σ)
  | .sign u :: stack, output => release op stack (.unary u :: output)
  | .binary o :: stack, output =>
    if o.yieldsTo op then release op stack (.binary o :: output) else (.binary o :: stack, output)
  | stack, output => (stack, output)

/-- Moves everything above the topmost open parenthesis to the output.  The
stack that is left starts with that parenthesis or, if there was none, is
empty. -/
def drain : List (Pending σ) → List (Item σ) → List (Pending σ) × List (Item σ)
  | .sign u :: stack, output => drain stack (.unary u :: output)
  | .binary o :: stack, output => drain stack (.binary o :: output)
  | .func f :: stack, output => drain stack (.fn f :: output)
  | .paren :: stack, output => (.paren :: stack, output)
  | [], output => ([], output)

end Pending

namespace Scan

/-! ### Steps -/

/-- Remembers the kind of the word just read. -/
def advance (s : Scan σ) (kind : Kind) : Scan σ := { s with last := kind }

/-- Counts an operand: the first one begins the first argument. -/
def countOperand (s : Scan σ) : Scan σ := { s with arity := max s.arity 1 }

/-- Puts an item to the output. -/
def emit (s : Scan σ) (item : Item σ) : Scan σ := { s with output := item :: s.output }

/-- Lets something wait. -/
def push (s : Scan σ) (p : Pending σ) : Scan σ := { s with stack := p :: s.stack }

/-- Lets a binary operator wait, after those that come before it. -/
def pushBinary (s : Scan σ) (op : BinaryOp) : Scan σ :=
  let (stack, output) := Pending.release op s.stack s.output
  { s with stack := .binary op :: stack, output }

/-- Places everything above the topmost open parenthesis. -/
def drained (s : Scan σ) : Scan σ :=
  let (stack, output) := Pending.drain s.stack s.output
  { s with stack, output }

/-- Places a function whose arguments are complete and returns to the counter
of the call around it. -/
def finishCall (s : Scan σ) (call : List Float → Eval σ Float) : Scan σ :=
  { s with
    output := .fn call :: s.output
    arities := s.arity :: s.arities
    arity := s.saved.headD 0
    saved := s.saved.tail }

/-- Refuses unless `ok` holds. -/
def require (ok : Bool) : Except Error Unit := if ok then pure () else throw .malformed

/-- Reads a literal. -/
def literal (s : Scan σ) (l : Literal) : Except Error (Scan σ) := do
  require s.last.expectsOperand
  return (s.countOperand.emit (.const (l.value .float))).advance .literal

/-- Reads a name.  Right after a literal it may be multiplied with it. -/
def name (C : Context σ) (s : Scan σ) (word : Bytes) (opensCall : Bool) :
    Except Error (Scan σ) := do
  let multiplies := s.last == .literal && C.allows .implicitMultiplication
  require (multiplies || s.last.expectsOperand)
  let s := (if multiplies then s.pushBinary .mul else s).countOperand
  match C.find? word with
  | none => throw .undefinedName
  | some (.const x) => return (s.emit (.const x)).advance .const
  | some (.var read) => return (s.emit (.var read)).advance .var
  | some (.fn call) =>
    require opensCall
    return (s.push (.func call)).advance .func

/-- Reads a left parenthesis, of a call or of a group. -/
def leftParen (s : Scan σ) : Except Error (Scan σ) := do
  if s.last = .func then
    return ({ s with saved := s.arity :: s.saved, arity := 0 }.push .paren).advance .leftParen
  else
    require s.last.expectsOperand
    return (s.countOperand.push .paren).advance .leftParen

/-- Closes the parenthesis at the top of the stack.  Only a call may be
`empty`. -/
def close (s : Scan σ) (empty : Bool) : Except Error (Scan σ) :=
  match s.stack.tail with
  | .func call :: stack => pure (({ s with stack }.finishCall call).advance .rightParen)
  | stack => do
    require !empty
    return { s with stack }.advance .rightParen

/-- Reads a right parenthesis. -/
def rightParen (C : Context σ) (s : Scan σ) : Except Error (Scan σ) :=
  if s.last = .leftParen then s.close true
  else do
    require !s.last.expectsOperand
    let s := s.drained
    if s.stack.isEmpty then
      require (C.allows .implicitParentheses)
      return s.advance .rightParen
    else s.close false

/-- Reads a comma, which ends an argument and begins the next one. -/
def comma (C : Context σ) (s : Scan σ) : Except Error (Scan σ) := do
  require (s.last.endsOperand && !s.saved.isEmpty)
  let s := s.drained
  require (!s.stack.isEmpty || C.allows .implicitParentheses)
  return { s with arity := s.arity + 1 }.advance .comma

/-- The binary operator of a byte, where one may stand and it is enabled. -/
def binary? (C : Context σ) (last : Kind) (byte : UInt8) : Option BinaryOp :=
  if last.endsOperand then (BinaryOp.ofByte? byte).filter fun op => C.allows op.feature else none

/-- The sign of a byte, where one may stand and it is enabled. -/
def sign? (C : Context σ) (last : Kind) (byte : UInt8) : Option UnaryOp :=
  if last.allowsSign then (UnaryOp.ofByte? byte).filter fun op => C.allows op.feature else none

/-- Reads an operator. -/
def operator (C : Context σ) (s : Scan σ) (byte : UInt8) : Except Error (Scan σ) :=
  match binary? C s.last byte, sign? C s.last byte with
  | some op, _ => pure ((s.pushBinary op).advance .binary)
  | none, some op => pure ((s.push (.sign op)).advance .sign)
  | none, none => throw .malformed

/-- Reads one word. -/
def accept (C : Context σ) (s : Scan σ) : Lexeme → Except Error (Scan σ)
  | .literal l => s.literal l
  | .badLiteral => throw .malformed
  | .name word opensCall => s.name C word opensCall
  | .leftParen => s.leftParen
  | .rightParen => s.rightParen C
  | .comma => s.comma C
  | .other byte => s.operator C byte

/-- Reads words in turn. -/
def acceptAll (C : Context σ) (s : Scan σ) (words : List Lexeme) : Except Error (Scan σ) :=
  words.foldlM (accept C) s

/-! ### The end of the text -/

/-- Places everything that still waits, on the stack given beside the state.
A parenthesis that is still open needs implicit parentheses, and a call that
is still open needs an argument. -/
def unwind (C : Context σ) (s : Scan σ) : List (Pending σ) → Except Error (Scan σ)
  | [] => pure { s with stack := [] }
  | .paren :: stack => do
    require (C.allows .implicitParentheses)
    unwind C s stack
  | .func call :: stack => do
    require (s.arity ≠ 0)
    unwind C (s.finishCall call) stack
  | .sign u :: stack => unwind C (s.emit (.unary u)) stack
  | .binary o :: stack => unwind C (s.emit (.binary o)) stack

/-- The postfix form of what has been read, if the text may end here. -/
def finish (C : Context σ) (s : Scan σ) : Except Error (Postfix σ) := do
  require !s.last.expectsOperand
  let s ← unwind C s s.stack
  return ⟨s.output.reverse, s.arities.reverse⟩

end Scan

namespace Context

/-! ### Formulas -/

/-- The words of a formula in the grammar of a context. -/
def lex (C : Context σ) (text : Bytes) : List Lexeme :=
  Formula.lex (C.allows .scientificNotation) text

/-- The postfix form of a formula. -/
def compile (C : Context σ) (text : Bytes) : Except Error (Postfix σ) := do
  let s ← Scan.acceptAll C {} (C.lex text)
  s.finish C

/-- The value of a formula.  It is compiled to its end before anything is
read or called. -/
def evaluate (C : Context σ) (text : Bytes) : Eval σ Float :=
  match C.compile text with
  | .ok p => p.run
  | .error e => throw e

end Context

end Formula
