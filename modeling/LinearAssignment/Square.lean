/-
Solving a square matrix: the matching of least cost as a matrix of zeros and ones, the reduced costs
in the place of the costs, and a report of how it went. A reduced cost too large for a cell is
written as the greatest cell and counted; the assignment is exact all the same.
-/
import LinearAssignment.Log
import LinearAssignment.Matrix.Text
import LinearAssignment.Optimum

namespace LinearAssignment

/-- The cells of a matrix as the costs of a square problem with as many rows. -/
def Matrix.costs (m : Matrix) : Costs m.rows := fun i j => m.entry i j

namespace Optimum

variable {n : Nat}

/-- The matching as a matrix: `1` at the matched positions, `0` elsewhere. -/
def assignment (o : Optimum n) : Matrix :=
  .ofFn n n fun i j => if o.matching.colOf.get i = some j then 1 else 0

/-- The reduced costs of `c` as cells. -/
def reduced (o : Optimum n) (c : Costs n) : Matrix :=
  .ofFn n n fun i j => Cell.capped (o.potentials.reduced c i j)

/-- The number of reduced costs of `c` that no cell can hold. -/
def cappedCount (o : Optimum n) (c : Costs n) : Nat :=
  (List.finRange n).foldl (fun count i =>
    count + (List.finRange n).countP fun j => (Cell.ofInt? (o.potentials.reduced c i j)).isNone) 0

end Optimum

/-- What solving a square matrix leaves behind. -/
structure SquareSolution where
  assignment : Matrix
  /-- The reduced costs, followed by the surplus cells of the matrix that was solved. -/
  reduced : Matrix
deriving DecidableEq, Repr

namespace SquareSolution

/-- The solution that an optimum of the square matrix `m` stands for. -/
def ofOptimum (m : Matrix) (o : Optimum m.rows) : SquareSolution where
  assignment := o.assignment
  reduced :=
    let cells := o.reduced m.costs
    { cells with data := cells.data ++ m.data.extract (m.rows * m.rows) m.data.size }

/-- The report on an optimum of the square matrix `m`; a matrix without rows needs none. -/
def report (m : Matrix) (o : Optimum m.rows) : List Log.Record :=
  let n := m.rows
  let capped := o.cappedCount m.costs
  if n = 0 then []
  else
    [⟨.debug, s!"solving {n}x{n}: {o.matchedFirst} rows matched by reduction"⟩,
      ⟨.debug, s!"solved {n}x{n}: {o.augmentations} augmentations, {o.adjustments} adjustments"⟩] ++
    (if capped = 0 then []
      else [⟨.warn, s!"{capped} reduced costs exceed i64::MAX and were reported as i64::MAX"⟩]) ++
    [⟨.trace, "final cost matrix:\n" ++ String.ofList (ofOptimum m o).reduced.text⟩]

end SquareSolution

/-- Solves a square matrix. -/
def Matrix.solveSquare (m : Matrix) : ExceptT Fault Logged SquareSolution :=
  if m.isSquare then
    if m.Complete then do
      let o := optimum m.costs
      Logged.report (SquareSolution.report m o)
      return .ofOptimum m o
    else throw .missingCells
  else throw (.notSquare m.rows m.cols)

end LinearAssignment
