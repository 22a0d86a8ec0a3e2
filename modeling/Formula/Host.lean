/-
Formula/Host.lean

A host that remembers what its formulas asked for.

Beside its cells the host keeps a record of the variables that were read and
of the functions that were called, in their order, each under the name that
the symbol was added with.  The record is what two ways of evaluating a
formula have to agree on beside the value.
-/
import Formula.Cells

namespace Formula

/-- Something that a formula asked of its host: a variable was read, or a function was called
with arguments. -/
inductive Event where
  | read (name : String)
  | call (name : String) (args : List Float)

/-- The state of a host: the cells, and the record with the latest event first. -/
structure Host where
  cells : Cells := .zero
  record : List Event := []

namespace Host

/-- Adds an event to the record. -/
def note (event : Event) : StateM Host Unit :=
  modify fun h => { h with record := event :: h.record }

/-- The number in a cell. -/
def cell (name : String) : StateM Host Float := return (← get).cells name

/-- Sets a cell. -/
def setCell (name : String) (x : Float) : StateM Host Unit :=
  modify fun h => { h with cells := h.cells.set name x }

/-- A variable that reads a cell and notes that it was read. -/
def cellSymbol (name cell : String) : Symbol Host :=
  .var do
    note (.read name)
    Host.cell cell

/-- A function that notes that it was called. -/
def functionSymbol (name : String) (call : List Float → Eval Host Float) : Symbol Host :=
  .fn fun args => do
    note (.call name args)
    call args

/-- The record since it was last taken, the earliest event first; it is empty
afterwards. -/
def takeRecord : StateM Host (List Event) :=
  modifyGet fun h => (h.record.reverse, { h with record := [] })

end Host

end Formula
