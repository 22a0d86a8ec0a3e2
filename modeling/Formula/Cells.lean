/-
Formula/Cells.lean

Numbers that live outside a formula.

A cell has a name and holds a number, zero until it is set.  Cells are not
symbols: a variable is bound to one and reads it each time, so setting a
cell is seen by every formula that was compiled before.
-/
import Formula.Symbol

namespace Formula

/-- Numbers by the names of their cells. -/
abbrev Cells := String → Float

namespace Cells

/-- Cells that were never set. -/
def zero : Cells := fun _ => 0.0

/-- The cells with one of them set. -/
def set (cells : Cells) (cell : String) (x : Float) : Cells :=
  fun name => if name = cell then x else cells name

/-- Reads a cell. -/
def read (cell : String) : StateM Cells Float := return (← get) cell

end Cells

end Formula
