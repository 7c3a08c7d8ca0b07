/-
Square cost problems made from rectangular ones. Dummy rows or columns of zeros fill the shorter
side, in both objectives, so a dummy is used only where the shape forces it.
-/
import LinearAssignment.Matrix.Basic
import LinearAssignment.Objective

namespace LinearAssignment

/-- A square cost matrix, with the shape of the matrix it was made from. Rows from `rows` on and
columns from `cols` on are dummies. -/
structure Padded where
  matrix : Matrix
  rows : Nat
  cols : Nat
deriving DecidableEq, Repr

namespace Padded

/-- The side of the square. -/
def size (p : Padded) : Nat := p.matrix.rows

/-- Whether a position belongs to the matrix before padding. -/
def isReal (p : Padded) (row col : Nat) : Bool := row < p.rows && col < p.cols

/-- The square of side `n` with the given rows in its upper left corner and zeros around them. -/
def square (n : Nat) (rows : List (List Cell)) : Matrix :=
  .ofFn n n fun i j => ((rows[i.val]?).bind (·[j.val]?)).getD 0

/-- The costs that stand for the full rows of a matrix. -/
def costRows (m : Matrix) (o : Objective) : Except Error (List (List Cell)) :=
  m.fullRows.mapM fun row => row.mapM (o.cost (m.max?.getD 0))

/-- The padded problem of a matrix. Full rows are transformed in order before a missing cell is
noticed, so an overflow in one of them comes first. -/
def ofMatrix (m : Matrix) (o : Objective) : Except Failure Padded :=
  if m.isEmpty then .error (.error (.emptyMatrix m.rows m.cols))
  else
    match costRows m o with
    | .error e => .error (.error e)
    | .ok rows =>
      if m.Complete then .ok ⟨square (max m.rows m.cols) rows, m.rows, m.cols⟩
      else .error (.fault .missingCells)

end Padded

end LinearAssignment
