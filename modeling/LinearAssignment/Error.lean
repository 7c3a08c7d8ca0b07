/-
What can go wrong, by cause. An `Error` is a property of the problem (nothing to assign, rows of
different lengths, a number too large to report) and has a place in every answer; a `Fault` is a
misuse of a matrix (wrong shape, a position outside it, cells its shape promises but does not
store, more cells than a storage can hold) and ends the computation. `Failure` is either of them, for
operations that meet both.
-/

namespace LinearAssignment

/-- Why a problem has no answer. -/
inductive Error where
  /-- A matrix without rows or without columns. -/
  | emptyMatrix (rows cols : Nat)
  /-- Row `row` (from 0) has `found` entries, the first row has `expected`. -/
  | raggedRow (row expected found : Nat)
  /-- A value that no cell can hold came up during `activity`. -/
  | overflow (activity : String)
deriving DecidableEq, Repr

/-- Why an operation on a matrix cannot go on. -/
inductive Fault where
  /-- A square matrix was asked for. -/
  | notSquare (rows cols : Nat)
  /-- The position `(row, col)` is outside a matrix of the given shape. -/
  | outOfBounds (row col rows cols : Nat)
  /-- A cell inside the shape of the matrix is not stored. -/
  | missingCells
  /-- A storage of this size cannot be asked for. -/
  | tooManyCells
deriving DecidableEq, Repr

/-- The end of an operation that can meet errors and faults. -/
inductive Failure where
  | error (e : Error)
  | fault (f : Fault)
deriving DecidableEq, Repr

instance : MonadLift (Except Error) (Except Failure) := ⟨Except.mapError .error⟩

instance : MonadLift (Except Fault) (Except Failure) := ⟨Except.mapError .fault⟩

/-! ## Results -/

section
variable {ε α β : Type} {x : Except ε α}

theorem map_eq_ok {f : α → β} {b : β} : x.map f = .ok b ↔ ∃ a, x = .ok a ∧ f a = b := by
  cases x <;> simp [Except.map]

theorem exists_of_bind_ok {k : α → Except ε β} {b : β} (h : x >>= k = .ok b) :
    ∃ a, x = .ok a ∧ k a = .ok b := by
  cases x with
  | error e => cases h
  | ok a => exact ⟨a, rfl, h⟩

end

/-! ## Messages -/

/-- The activity of computing costs from utilities. -/
def Activity.transforming : String := "transforming utilities to costs"

/-- The activity of adding up the assigned cells. -/
def Activity.summing : String := "summing the assignment total"

def Error.message : Error → String
  | .emptyMatrix rows cols => s!"Empty matrix: {rows} x {cols} has no assignable cells"
  | .raggedRow row expected found => s!"Ragged matrix: row {row} has {found} entries, expected {expected}"
  | .overflow activity => s!"Integer overflow while {activity}"

/-- The text of a fault. What is wrong with the number of cells is found by the storage below, which has
no text to offer. -/
def Fault.message? : Fault → Option String
  | .notSquare rows cols => some s!"solver requires a square matrix, got {rows}x{cols}"
  | .outOfBounds row col rows cols => some s!"index ({row}, {col}) out of bounds for {rows}x{cols} matrix"
  | .missingCells => none
  | .tooManyCells => none

end LinearAssignment
