/-
Rectangular matrices of cells, stored row by row in one array.

Shape and storage are kept as they come: a matrix read from text may store fewer or more cells
than its shape asks for. `WellFormed` says that the two agree, `Complete` that no cell is missing.
Whole-matrix operations work on the full rows, those with all their cells stored, and report
`missingCells` when they run past them; surplus cells are seen by `max?` and by equality only.
-/
import LinearAssignment.Cell
import LinearAssignment.Error

namespace LinearAssignment

structure Matrix where
  rows : Nat
  cols : Nat
  /-- The cell in row `i` and column `j` is at index `i * cols + j`. -/
  data : Array Cell
deriving DecidableEq, Repr

namespace Matrix

/-! ## Construction -/

/-- The matrix without rows and columns. -/
def empty : Matrix := ⟨0, 0, #[]⟩

instance : Inhabited Matrix := ⟨empty⟩

/-- The zeros of a shape. Whether there can be as many is up to `allocate`. -/
def zeros (rows cols : Nat) : Matrix := ⟨rows, cols, Array.replicate (rows * cols) 0⟩

theorem div_cols_lt {rows cols : Nat} (k : Fin (rows * cols)) : k.val / cols < rows :=
  Nat.div_lt_of_lt_mul (Nat.lt_of_lt_of_eq k.isLt (Nat.mul_comm rows cols))

theorem mod_cols_lt {rows cols : Nat} (k : Fin (rows * cols)) : k.val % cols < cols :=
  Nat.mod_lt _ (Nat.pos_of_mul_pos_left (Nat.zero_lt_of_lt k.isLt))

/-- The matrix with `f i j` in row `i` and column `j`. -/
def ofFn (rows cols : Nat) (f : Fin rows → Fin cols → Cell) : Matrix where
  rows := rows
  cols := cols
  data := Array.ofFn fun k : Fin (rows * cols) => f ⟨k / cols, div_cols_lt k⟩ ⟨k % cols, mod_cols_lt k⟩

/-- The matrix with the given rows. The first row sets the number of columns, and the first row
that differs from it is reported. -/
def ofRows (rows : List (List Cell)) : Except Error Matrix :=
  let cols := (rows.head?.map List.length).getD 0
  match rows.zipIdx.find? fun p => p.1.length ≠ cols with
  | some (row, i) => .error (.raggedRow i cols row.length)
  | none => .ok ⟨rows.length, cols, rows.flatten.toArray⟩

/-! ## Shape -/

def isEmpty (m : Matrix) : Bool := m.rows == 0 || m.cols == 0

def isSquare (m : Matrix) : Bool := m.rows == m.cols

/-- The matrix stores exactly the cells of its shape. -/
def WellFormed (m : Matrix) : Prop := m.data.size = m.rows * m.cols

/-- The matrix stores all cells of its shape, and perhaps more. -/
def Complete (m : Matrix) : Prop := m.rows * m.cols ≤ m.data.size

instance (m : Matrix) : Decidable m.WellFormed :=
  inferInstanceAs (Decidable (m.data.size = m.rows * m.cols))

instance (m : Matrix) : Decidable m.Complete :=
  inferInstanceAs (Decidable (m.rows * m.cols ≤ m.data.size))

theorem WellFormed.complete {m : Matrix} (h : m.WellFormed) : m.Complete := Nat.le_of_eq h.symm

theorem wellFormed_empty : empty.WellFormed := rfl

theorem wellFormed_zeros (rows cols : Nat) : (zeros rows cols).WellFormed := by
  simp [WellFormed, zeros]

theorem wellFormed_ofFn {rows cols : Nat} (f : Fin rows → Fin cols → Cell) :
    (ofFn rows cols f).WellFormed := by
  simp [WellFormed, ofFn]

/-! ## Cells -/

/-- The cell at a position of the shape, nothing outside the shape. -/
def lookup (m : Matrix) (row col : Nat) : Except Fault (Option Cell) :=
  if row < m.rows ∧ col < m.cols then
    match m.data[row * m.cols + col]? with
    | some c => .ok (some c)
    | none => .error .missingCells
  else .ok none

/-- The cell at a position of the shape; any other position is a fault. -/
def cell (m : Matrix) (row col : Nat) : Except Fault Cell :=
  if row < m.rows ∧ col < m.cols then
    match m.data[row * m.cols + col]? with
    | some c => .ok c
    | none => .error .missingCells
  else .error (.outOfBounds row col m.rows m.cols)

/-- The matrix with `c` at a position of the shape; any other position is a fault. -/
def setCell (m : Matrix) (row col : Nat) (c : Cell) : Except Fault Matrix :=
  if row < m.rows ∧ col < m.cols then
    if h : row * m.cols + col < m.data.size then
      .ok { m with data := m.data.set (row * m.cols + col) c }
    else .error .missingCells
  else .error (.outOfBounds row col m.rows m.cols)

/-- The value at row `i` and column `j`, `0` where nothing is stored. -/
def entry (m : Matrix) (i j : Nat) : Int := (m.data.getD (i * m.cols + j) 0).toInt

/-- The largest stored cell. -/
def max? (m : Matrix) : Option Cell := m.data.toList.max?

/-! ## Rows -/

/-- The cells stored in the place of row `i`. -/
def slice (m : Matrix) (i : Nat) : List Cell :=
  (m.data.extract (i * m.cols) ((i + 1) * m.cols)).toList

/-- The cells in the place of row `i`. Only storage is asked for, so a row below the shape is found
among surplus cells, and every row of a matrix without columns is empty. -/
def row (m : Matrix) (i : Nat) : Except Fault (List Cell) :=
  if (i + 1) * m.cols ≤ m.data.size then .ok (m.slice i) else .error .missingCells

/-- The number of rows of the shape, from the first on, that have all their cells stored. -/
def fullRowCount (m : Matrix) : Nat :=
  if m.cols = 0 then m.rows else min m.rows (m.data.size / m.cols)

/-- The rows of the shape, from the first on, that have all their cells stored. -/
def fullRows (m : Matrix) : List (List Cell) := (List.range m.fullRowCount).map m.slice

/-- All rows of the shape. -/
def toRows (m : Matrix) : Except Fault (List (List Cell)) :=
  if m.Complete then .ok m.fullRows else .error .missingCells

theorem fullRowCount_of_complete {m : Matrix} (h : m.Complete) : m.fullRowCount = m.rows := by
  unfold fullRowCount
  split
  · rfl
  · next hc =>
    exact Nat.min_eq_left ((Nat.le_div_iff_mul_le (Nat.pos_of_ne_zero hc)).2 h)

theorem length_fullRows (m : Matrix) : m.fullRows.length = m.fullRowCount := by
  simp [fullRows]

end Matrix

end LinearAssignment
