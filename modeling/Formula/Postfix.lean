/-
Formula/Postfix.lean

Formulas in postfix form, and how they are run.

In postfix form an operator stands after its operands and a function after
its arguments, so there is nothing left to group.  The number of arguments
of each call is kept beside the items, one number for every function, in the
order of the functions.

`Postfix.run` goes through the items with a stack of values.  Constants and
variables are pushed; operators and functions take their operands from the
top and push what they give.  What is left at the end is the value of the
formula.  A list of items that is not the postfix form of anything runs out
of operands or leaves too many values, and is refused there; a list that
`compile` makes never is.
-/
import Formula.Operator
import Formula.Symbol
import Formula.Decimal.Notation

namespace Formula

/-- One item of a formula in postfix form.  A variable is read when its turn comes, and a
function or an operator takes the values right before it. -/
inductive Item (σ : Type) where
  | const (value : Float)
  | var (read : StateM σ Float)
  | fn (call : List Float → Eval σ Float)
  | unary (op : UnaryOp)
  | binary (op : BinaryOp)

/-- A formula in postfix form: its items, and the number of arguments of each call in the
order of the functions. -/
structure Postfix (σ : Type) where
  items : List (Item σ)
  arities : List Nat

variable {σ : Type}

namespace Postfix

/-! ### Running -/

/-- The value that the items leave, started on a stack of values, top first,
with the numbers of arguments of the calls to come. -/
def exec : List (Item σ) → List Nat → List Float → Eval σ Float
  | [], _, [x] => pure x
  | .const x :: items, ns, stack => exec items ns (x :: stack)
  | .var read :: items, ns, stack => do exec items ns ((← read) :: stack)
  | .unary op :: items, ns, x :: stack => exec items ns (op.apply x :: stack)
  | .binary op :: items, ns, y :: x :: stack => exec items ns (op.apply x y :: stack)
  | .fn call :: items, n :: ns, stack =>
    if n ≤ stack.length then do
      exec items ns ((← call (stack.take n).reverse) :: stack.drop n)
    else throw .malformed
  | _, _, _ => throw .malformed

/-- The value of a formula.  Every variable is read anew, and the first call
that fails ends the run. -/
def run (p : Postfix σ) : Eval σ Float := exec p.items p.arities []

/-! ### Showing -/

/-- The text of an item.  A variable is read to show its value. -/
def describeItem : Item σ → StateM σ String
  | .const x => pure s!"Constant({numberText x})"
  | .var read => do return s!"Variable(<{numberText (← read)}>)"
  | .fn _ => pure "Function"
  | .unary op => pure s!"UnaryOperator({op.symbol})"
  | .binary op => pure s!"BinaryOperator({op.symbol})"

/-- The texts of a list in brackets, with commas between them. -/
def bracketed (texts : List String) : String := "[" ++ ", ".intercalate texts ++ "]"

/-- The text of a formula in postfix form. -/
def describe (p : Postfix σ) : StateM σ String := do
  let items ← p.items.mapM describeItem
  return "RPNExpr \x7b tokens: " ++ bracketed items ++ ", arities: "
    ++ bracketed (p.arities.map toString) ++ " \x7d"

end Postfix

end Formula
