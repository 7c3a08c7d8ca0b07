/-
Matrices, objectives, solutions and summaries as JSON text. What writes and reads them is left open, but for
the representation of each type: which fields the records have, in which order and of which types, and the
words for the objectives. All values whose sizes and positions are below the limit read back, whether or not
their fields fit together, with pairs that repeat, rows of different lengths, and cells of any value.
-/
import LinearAssignment.Matrix.Allocation
import LinearAssignment.Proofs.Json.Serial
import LinearAssignment.Summary

namespace LinearAssignment

/-! ## Sizes within the limit -/

/-- The shape is within the limit; the number of cells stored need not fit it. -/
def Matrix.Sized (m : Matrix) : Prop := m.rows < sizeLimit ∧ m.cols < sizeLimit

def RowMap.Sized (m : RowMap) : Prop := ∀ e ∈ m.entries, e.1 < sizeLimit ∧ e.2 < sizeLimit

structure Solution.Sized (s : Solution) : Prop where
  assignment : s.assignment.Sized
  pairs : ∀ p ∈ s.pairs, p.1 < sizeLimit ∧ p.2 < sizeLimit
  reduced : s.reduced.Sized
  square : s.square.Sized
  rows : s.rows < sizeLimit
  cols : s.cols < sizeLimit

def Summary.Sized (s : Summary) : Prop := s.columns.Sized

namespace Json

/-! ## The types and their representations -/

/-- A way to write and to read each of the records, and the types that they are made of. -/
structure Serials where
  bool : Serial Bool fun _ => True
  size : Serial Nat (· < sizeLimit)
  cell : Serial Cell fun _ => True
  cells : Serial (List Cell) fun _ => True
  nested : Serial (List (List Cell)) fun _ => True
  pair : Serial (Nat × Nat) fun p => p.1 < sizeLimit ∧ p.2 < sizeLimit
  pairs : Serial (List (Nat × Nat)) fun l => ∀ p ∈ l, p.1 < sizeLimit ∧ p.2 < sizeLimit
  columns : Serial RowMap RowMap.Sized
  matrix : Serial Matrix Matrix.Sized
  objective : Serial Objective fun _ => True
  solution : Serial Solution Solution.Sized
  summary : Serial Summary Summary.Sized

namespace Serials

variable (S : Serials)

def matrixFields : List (Field Matrix) :=
  [⟨"rows", S.size, Matrix.rows⟩, ⟨"cols", S.size, Matrix.cols⟩, ⟨"data", S.cells, (·.data.toList)⟩]

def solutionFields : List (Field Solution) :=
  [⟨"success", S.bool, Solution.success⟩, ⟨"total", S.cell, Solution.total⟩,
    ⟨"assignment", S.matrix, Solution.assignment⟩, ⟨"assignment_map", S.pairs, Solution.pairs⟩,
    ⟨"cost", S.matrix, Solution.reduced⟩, ⟨"matrix", S.matrix, Solution.square⟩,
    ⟨"rows", S.size, Solution.rows⟩, ⟨"cols", S.size, Solution.cols⟩,
    ⟨"mode", S.objective, Solution.objective⟩]

def summaryFields : List (Field Summary) :=
  [⟨"success", S.bool, Summary.success⟩, ⟨"total_cost", S.cell, Summary.total⟩,
    ⟨"assignment", S.nested, Summary.assignment⟩, ⟨"assignment_map", S.columns, Summary.columns⟩,
    ⟨"cost", S.nested, Summary.reduced⟩, ⟨"matrix", S.nested, Summary.square⟩]

def boolWords : List (Bool × List Char) := [(true, "true".toList), (false, "false".toList)]

/-- All types have the representation that goes with their declaration. -/
structure Conforming : Prop where
  bool : S.bool.Words boolWords
  size : S.size.Decimals Int.ofNat
  cell : S.cell.Decimals Int64.toInt
  cells : S.cells.ArrayOf S.cell
  nested : S.nested.ArrayOf S.cells
  pair : S.pair.PairOf S.size S.size
  pairs : S.pairs.ArrayOf S.pair
  columns : S.columns.MapOf S.size
  matrix : S.matrix.RecordOf S.matrixFields
  objective : S.objective.VariantOf [.minimizeCost, .maximizeUtility] Objective.name
  solution : S.solution.RecordOf S.solutionFields
  summary : S.summary.RecordOf S.summaryFields

end Serials

/-! ## Reading back -/

namespace Serials.Conforming

variable {S : Serials} (h : S.Conforming)
include h

theorem restores_bool (b : Bool) : S.bool.Restores b :=
  h.bool.restores (w := (b, if b then "true".toList else "false".toList)) (by cases b <;> decide)

theorem restores_size {n : Nat} (hn : n < sizeLimit) : S.size.Restores n := h.size.restores hn

theorem restores_cell (c : Cell) : S.cell.Restores c := h.cell.restores trivial

theorem restores_cells (l : List Cell) : S.cells.Restores l := h.cells.restores fun c _ => h.restores_cell c

theorem restores_nested (l : List (List Cell)) : S.nested.Restores l :=
  h.nested.restores fun row _ => h.restores_cells row

theorem restores_pairs {l : List (Nat × Nat)} (hl : ∀ p ∈ l, p.1 < sizeLimit ∧ p.2 < sizeLimit) :
    S.pairs.Restores l :=
  h.pairs.restores fun p hp => h.pair.restores (h.restores_size (hl p hp).1) (h.restores_size (hl p hp).2)

theorem restores_columns {m : RowMap} (hm : m.Sized) : S.columns.Restores m :=
  h.columns.restores (fun e he => (hm e he).1) fun e he => h.restores_size (hm e he).2

theorem restores_objective (o : Objective) : S.objective.Restores o :=
  h.objective.restores (by decide) (by cases o <;> decide)

theorem restores_matrix {m : Matrix} (hm : m.Sized) : S.matrix.Restores m := by
  refine h.matrix.restores (by simp [matrixFields]) ?_
  simp only [matrixFields, List.forall_mem_cons]
  exact ⟨h.restores_size hm.1, h.restores_size hm.2, h.restores_cells m.data.toList,
    List.forall_mem_nil _⟩

theorem restores_solution {s : Solution} (hs : s.Sized) : S.solution.Restores s := by
  refine h.solution.restores (by simp [solutionFields]) ?_
  simp only [solutionFields, List.forall_mem_cons]
  exact ⟨h.restores_bool s.success, h.restores_cell s.total, h.restores_matrix hs.assignment,
    h.restores_pairs hs.pairs, h.restores_matrix hs.reduced, h.restores_matrix hs.square,
    h.restores_size hs.rows, h.restores_size hs.cols, h.restores_objective s.objective,
    List.forall_mem_nil _⟩

theorem restores_summary {s : Summary} (hs : s.Sized) : S.summary.Restores s := by
  refine h.summary.restores (by simp [summaryFields]) ?_
  simp only [summaryFields, List.forall_mem_cons]
  exact ⟨h.restores_bool s.success, h.restores_cell s.total, h.restores_nested s.assignment,
    h.restores_columns hs, h.restores_nested s.reduced, h.restores_nested s.square,
    List.forall_mem_nil _⟩

end Serials.Conforming

end Json

end LinearAssignment
