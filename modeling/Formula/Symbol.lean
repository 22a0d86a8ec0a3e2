/-
Formula/Symbol.lean

What a name can stand for, and the world that formulas are evaluated in.

A formula is evaluated in a world `σ` that belongs to its host.  Reading a
variable and calling a function are steps of that world: they may look at it
and change it, and a call may also fail.  A failure does not undo the steps
before it, so evaluation is a state transformer that always returns the
world, with an error or with a value.
-/
import Formula.Error

namespace Formula

/-- A computation in the world `σ` that may fail.  The world survives a
failure. -/
abbrev Eval (σ : Type) := ExceptT Error (StateM σ)

/-- What a name stands for: a fixed number, a number that the host owns and that is read when
it is needed, or a function.  A function receives its arguments in the order of the call
and checks their number itself. -/
inductive Symbol (σ : Type) where
  | const (value : Float)
  | var (read : StateM σ Float)
  | fn (call : List Float → Eval σ Float)

end Formula
