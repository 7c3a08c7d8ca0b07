/-
The aligned text of a matrix: one line for each row, cells right-aligned to a common width and
separated by one space, every line ended by a newline. The width is that of the longest decimal
text among all stored cells.
-/
import LinearAssignment.Decimal
import LinearAssignment.Matrix.Basic

namespace LinearAssignment

/-- The decimal text of a cell. -/
def Cell.text (c : Cell) : List Char := Decimal.ofInt c.toInt

namespace Matrix

/-- The common width of all cells; it is 1 where nothing is stored. -/
def cellWidth (m : Matrix) : Nat :=
  ((m.data.toList.map fun c => (Cell.text c).length).max?).getD 1

/-- One line, without its end. -/
def line (width : Nat) (row : List Cell) : List Char :=
  [' '].intercalate (row.map fun c => (Cell.text c).leftpad width ' ')

/-- The text of the full rows. -/
def text (m : Matrix) : List Char := m.fullRows.flatMap fun row => line m.cellWidth row ++ ['\n']

/-- The text of all rows of the shape. -/
def display (m : Matrix) : Except Fault String :=
  if m.Complete then .ok (String.ofList m.text) else .error .missingCells

end Matrix

end LinearAssignment
