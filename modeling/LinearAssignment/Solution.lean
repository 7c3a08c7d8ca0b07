/-
The full record of a solved problem. Rows and columns are counted from 0; the matrices are those of
the padded problem, while the total and the pairs speak of the matrix before padding only.
-/
import LinearAssignment.Padded

namespace LinearAssignment

structure Solution where
  /-- Whether an assignment was found. -/
  success : Bool
  /-- The sum of the cells at the pairs. -/
  total : Cell
  /-- `1` at assigned positions, `0` elsewhere. -/
  assignment : Matrix
  /-- The assigned positions of the matrix before padding. -/
  pairs : List (Nat × Nat)
  /-- The reduced costs. -/
  reduced : Matrix
  /-- The padded problem. -/
  square : Matrix
  rows : Nat
  cols : Nat
  objective : Objective
deriving DecidableEq, Repr

namespace Solution

/-- The record of a problem without an answer. -/
def failed (rows cols : Nat) (objective : Objective) : Solution where
  success := false
  total := 0
  assignment := .empty
  pairs := []
  reduced := .empty
  square := .empty
  rows := rows
  cols := cols
  objective := objective

/-! ## Views of the pairs -/

/-- The column of the first pair with the given row. -/
def columnOf? (s : Solution) (row : Nat) : Option Nat :=
  (s.pairs.find? fun p => p.1 = row).map (·.2)

/-- The rows that no pair has, in ascending order. -/
def unassignedRows (s : Solution) : List Nat :=
  (List.range s.rows).filter fun r => (s.columnOf? r).isNone

/-- The columns that no pair has, in ascending order. -/
def unassignedCols (s : Solution) : List Nat :=
  (List.range s.cols).filter fun c => s.pairs.all fun p => p.2 ≠ c

/-! ## Assembly -/

/-- An assigned position of the matrix before padding, with its cell. -/
structure Pick where
  row : Nat
  col : Nat
  cell : Cell
deriving DecidableEq, Repr

/-- What row `i` of the assignment picks: the position of its first `1`, unless that is a dummy. -/
def pick? (m : Matrix) (p : Padded) (i : Nat) (row : List Cell) : Except Fault (Option Pick) :=
  match row.idxOf? 1 with
  | none => .ok none
  | some j =>
    if p.isReal i j then (m.cell i j).map fun c => some ⟨i, j, c⟩ else .ok none

/-- All picks of an assignment, row by row. -/
def picks (m : Matrix) (p : Padded) (assignment : Matrix) : Except Fault (List Pick) := do
  let found ← assignment.fullRows.zipIdx.mapM fun r => pick? m p r.2 r.1
  if assignment.Complete then return found.filterMap id else throw .missingCells

/-- The record of the problem `m`, padded to `p` and solved. Only the final total has to fit into a
cell. -/
def assemble (m : Matrix) (p : Padded) (assignment reduced : Matrix) (objective : Objective) :
    Except Failure Solution :=
  match picks m p assignment with
  | .error f => .error (.fault f)
  | .ok found =>
    match Cell.ofInt? (found.foldl (fun total k => total + k.cell.toInt) 0) with
    | none => .error (.error (.overflow Activity.summing))
    | some total =>
      .ok
        { success := true
          total := total
          assignment := assignment
          pairs := found.map fun k => (k.row, k.col)
          reduced := reduced
          square := p.matrix
          rows := p.rows
          cols := p.cols
          objective := objective }

end Solution

end LinearAssignment
