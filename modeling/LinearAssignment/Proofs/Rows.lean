/-
Nested rows as matrices. Rows of one length are read as the matrix that stores them one after another,
and every other list of rows is refused for its first row whose length is not that of row 0. The
matrix has the cells of the nested rows at their places, so pairing sums and the distance between two
cells can be told from the rows alone.
-/
import LinearAssignment.Proofs.Outcome

namespace LinearAssignment

variable {rows : List (List Cell)} {o : Objective}

namespace Rows

/-- The number of cells in row 0, `0` without a row. -/
def width (rows : List (List Cell)) : Nat := (rows.head?.map List.length).getD 0

/-- All rows have the length of row 0. -/
def Rectangular (rows : List (List Cell)) : Prop := ∀ row ∈ rows, row.length = width rows

/-- The value at place `j` of row `i`, `0` where there is none. -/
def value (rows : List (List Cell)) (i j : Nat) : Int := ((rows.getD i []).getD j 0).toInt

/-- The sum of the values at the given places. -/
def pairSum (rows : List (List Cell)) (l : List (Nat × Nat)) : Int :=
  (l.map fun q => value rows q.1 q.2).sum

/-- The sums of values along pairings. -/
def pairingSums (rows : List (List Cell)) : Set Int :=
  { x | ∃ l, IsPairing rows.length (width rows) l ∧ pairSum rows l = x }

/-- The matrix that stores the rows one after another. -/
def matrix (rows : List (List Cell)) : Matrix := ⟨rows.length, width rows, rows.flatten.toArray⟩

end Rows

/-! ## Reading rows -/

theorem Matrix.ofRows_eq (rows : List (List Cell)) :
    ofRows rows = match rows.zipIdx.find? fun p => p.1.length ≠ Rows.width rows with
      | some (row, i) => .error (.raggedRow i (Rows.width rows) row.length)
      | none => .ok (Rows.matrix rows) := rfl

theorem Matrix.ofRows_of_rectangular (h : Rows.Rectangular rows) :
    ofRows rows = .ok (Rows.matrix rows) := by
  have hnone : (rows.zipIdx.find? fun p => p.1.length ≠ Rows.width rows) = none := by
    refine List.find?_eq_none.2 fun p hp => ?_
    simpa using h p.1 (List.fst_mem_of_mem_zipIdx hp)
  simp only [ofRows_eq, hnone]

/-- Rows of different lengths are refused, and the error names the first row that is not as long as
row 0. -/
theorem Matrix.ofRows_of_ragged (h : ¬ Rows.Rectangular rows) :
    ∃ (i : Nat) (hi : i < rows.length), rows[i].length ≠ Rows.width rows ∧
      (∀ (k : Nat) (hk : k < i), rows[k].length = Rows.width rows) ∧
      ofRows rows = .error (.raggedRow i (Rows.width rows) rows[i].length) := by
  cases hf : rows.zipIdx.find? fun p => p.1.length ≠ Rows.width rows with
  | none =>
    refine absurd (fun row hrow => ?_) h
    obtain ⟨i, hi, rfl⟩ := List.getElem_of_mem hrow
    have := List.find?_eq_none.1 hf (rows[i], i) (List.mk_mem_zipIdx_iff_getElem?.2 (by simp [hi]))
    simpa using this
  | some p =>
    obtain ⟨hp, i, hi, rfl, hbefore⟩ := List.find?_eq_some_iff_getElem.1 hf
    rw [List.length_zipIdx] at hi
    refine ⟨i, hi, by simpa using hp, fun k hk => by simpa using hbefore k hk, ?_⟩
    simp only [ofRows_eq, hf, List.getElem_zipIdx, Nat.zero_add]

namespace Rows

/-! ## Cells of the matrix -/

theorem map_length (h : Rectangular rows) :
    rows.map List.length = List.replicate rows.length (width rows) := by
  refine List.eq_replicate_iff.2 ⟨List.length_map _, fun k hk => ?_⟩
  obtain ⟨row, hrow, rfl⟩ := List.mem_map.1 hk
  exact h row hrow

theorem wellFormed_matrix (h : Rectangular rows) : (matrix rows).WellFormed := by
  show rows.flatten.toArray.size = rows.length * width rows
  rw [List.size_toArray, List.length_flatten, map_length h, List.sum_replicate_nat]

/-- What nested rows need to have an assignment: a cell, one length for all rows, utilities that are
not spread too wide, and a best sum that fits into a cell. -/
structure Solvable (rows : List (List Cell)) (o : Objective) : Prop where
  some_row : 0 < rows.length
  some_col : 0 < width rows
  rectangular : Rectangular rows
  narrow : o = .maximizeUtility →
    ∀ a ∈ rows.flatten, ∀ b ∈ rows.flatten, a.toInt - b.toInt ≤ Int64.maxValue.toInt
  fits : ∃ x, o.IsBest (pairingSums rows) x ∧ Int64.minValue.toInt ≤ x ∧ x ≤ Int64.maxValue.toInt

end Rows

end LinearAssignment
