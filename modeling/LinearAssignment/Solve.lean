/-
Solving assignment problems of any shape, in either objective: pad to a square, solve the square,
and assemble the record. `solve` reports an error as such, `solveOrFail` as a failed solution.
-/
import LinearAssignment.Solution
import LinearAssignment.Square

namespace LinearAssignment

/-- Solves one problem. -/
def solve (m : Matrix) (o : Objective) : ExceptT Failure Logged Solution := do
  Logged.report [⟨.debug, s!"solving {m.rows}x{m.cols} assignment ({o.name})"⟩]
  let p ← liftExcept (Padded.ofMatrix m o)
  let s ← ExceptT.adapt .fault p.matrix.solveSquare
  liftExcept (Solution.assemble m p s.assignment s.reduced o)

/-- How grave an error is to a caller who gets a failed solution for it. -/
def Error.level : Error → Log.Level
  | .emptyMatrix _ _ => .debug
  | _ => .warn

/-- Solves one problem; a problem without an answer has a failed solution. -/
def solveOrFail (m : Matrix) (o : Objective) : ExceptT Fault Logged Solution := do
  match ← (solve m o).run with
  | .ok s => return s
  | .error (.fault f) => throw f
  | .error (.error e) =>
    Logged.report [⟨e.level, s!"no assignment: {e.message}"⟩]
    return .failed m.rows m.cols o

/-- Solves independent problems; the solutions are in the order of the problems. As no problem
depends on another, `settings.parallel` says who may compute them and not what they are. -/
def solveAll (ms : List Matrix) (settings : Settings) : ExceptT Fault Logged (List Solution) :=
  ms.mapM fun m => solveOrFail m settings.objective

end LinearAssignment
