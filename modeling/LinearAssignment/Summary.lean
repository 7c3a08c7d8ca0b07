/-
The record for hosts: nested rows go in, nested rows and a map from rows to columns come out, both
counted from 1, and whatever is wrong with the rows shows as an unsuccessful summary.
-/
import LinearAssignment.RowMap
import LinearAssignment.Solve

namespace LinearAssignment

structure Summary where
  success : Bool
  /-- The sum of the given cells at the assigned pairs. -/
  total : Cell
  assignment : List (List Cell)
  /-- The assigned column of each assigned row, counted from 1. -/
  columns : RowMap
  reduced : List (List Cell)
  square : List (List Cell)
deriving DecidableEq, Repr

namespace Summary

/-- The summary of a problem without an answer. -/
def unsuccessful : Summary where
  success := false
  total := 0
  assignment := []
  columns := .empty
  reduced := []
  square := []

def ofSolution (s : Solution) : Except Fault Summary := do
  let assignment ← s.assignment.toRows
  let reduced ← s.reduced.toRows
  let square ← s.square.toRows
  return {
    success := s.success
    total := s.total
    assignment := assignment
    columns := .ofList (s.pairs.map fun p => (p.1 + 1, p.2 + 1))
    reduced := reduced
    square := square }

end Summary

/-- Assigns the rows of a problem to its columns. -/
def summarize (rows : List (List Cell)) (o : Objective) : ExceptT Fault Logged Summary :=
  match Matrix.ofRows rows with
  | .error e => do
    Logged.report [⟨.warn, s!"rejecting input matrix: {e.message}"⟩]
    return .unsuccessful
  | .ok m => do
    let s ← solveOrFail m o
    liftExcept (Summary.ofSolution s)

/-- Pairs rows with columns so that the total cost is least. -/
def minimizeCost (rows : List (List Cell)) : ExceptT Fault Logged Summary :=
  summarize rows .minimizeCost

/-- Pairs rows with columns so that the total utility is greatest. -/
def maximizeUtility (rows : List (List Cell)) : ExceptT Fault Logged Summary :=
  summarize rows .maximizeUtility

end LinearAssignment
