/-
Access to the cells of a matrix. A cell can be looked up, or read at a position that has to be inside, or
found in its row or in the nested rows, and it can be written. Where exactly the cells of the shape are
stored, all these agree at every position, and what is written is read at its position and nowhere else,
as no two positions have the same place. Every way to come to another matrix, the rewriting of a matrix by
its reduced costs among them, keeps storage and shape together, and one that fails leaves the matrix as it
was; so after any number of them all matrices are like that. A way that asks for more cells than there can be
is one that fails, where products of sizes are checked; where they are not, the same matrices are come to as
long as no product wraps around.
-/
import LinearAssignment.Matrix.Allocation
import LinearAssignment.Proofs.Indexed.Solve

namespace LinearAssignment

variable {m : Matrix} {i j : Nat}

/-! ## Changes -/

/-- A way to come to another matrix. -/
inductive Change where
  | clear
  | zeros (rows cols : Nat)
  | ofRows (rows : List (List Cell))
  | setCell (row col : Nat) (c : Cell)
  /-- Solves the matrix, which leaves the reduced costs in its place. -/
  | reduce
  /-- Solves the matrix and goes on with the assignment. -/
  | assign
  /-- Goes on with the padded problem. -/
  | pad (o : Objective)
deriving DecidableEq, Repr

/-- Pads a matrix in place, in a square that has to be asked for. -/
def Indexed.padAllocated (a : Arithmetic) (m : Matrix) (o : Objective) : Except Failure Padded :=
  if m.isEmpty then throw (.error (.emptyMatrix m.rows m.cols))
  else do
    let n := max m.rows m.cols
    let square ← Matrix.allocate a n n
    let square ← (List.range m.rows).foldlM (fillRow m o) square
    return ⟨square, m.rows, m.cols⟩

namespace Change

/-- The shape of the storage that a change asks for. Solving asks for as many cells as the matrix has. -/
def shape? (m : Matrix) : Change → Option (Nat × Nat)
  | zeros rows cols => some (rows, cols)
  | ofRows rows => some (rows.length, Rows.width rows)
  | pad _ => if m.isEmpty then none else some (max m.rows m.cols, max m.rows m.cols)
  | _ => none

/-- What a change comes to, or why it fails. -/
def result (a : Arithmetic) (m : Matrix) : Change → Except Failure Matrix
  | clear => .ok .empty
  | zeros rows cols => (Matrix.allocate a rows cols).mapError .fault
  | ofRows rows => do
    let _ ← a.cellCount rows.length (Rows.width rows)
    Matrix.ofRows rows
  | setCell row col c => (m.setCell row col c).mapError .fault
  | reduce => (m.solveSquare.run.value.map SquareSolution.reduced).mapError .fault
  | assign => (m.solveSquare.run.value.map SquareSolution.assignment).mapError .fault
  | pad o => (Indexed.padAllocated a m o).map Padded.matrix

end Change

/-- The matrix after a change; one that fails leaves it as it was. -/
def Matrix.change (a : Arithmetic) (m : Matrix) (c : Change) : Matrix :=
  match c.result a m with
  | .ok m' => m'
  | .error _ => m

/-- No product of the sizes of a storage that is asked for on the way wraps around. -/
def Change.InWords : Matrix → List Change → Prop
  | _, [] => True
  | m, c :: changes =>
    (∀ s ∈ c.shape? m, s.1 * s.2 < sizeLimit) ∧ InWords (m.change .wrapping c) changes

instance Change.decidableInWords (m : Matrix) : (changes : List Change) → Decidable (InWords m changes)
  | [] => .isTrue trivial
  | c :: changes =>
    have := decidableInWords (m.change .wrapping c) changes
    inferInstanceAs (Decidable (_ ∧ _))

/-! ## Shape and storage -/

section
variable {ε ε' α β : Type} {f : ε → ε'} {g : α → β}

theorem mapError_eq_ok {x : Except ε α} {a : α} : x.mapError f = .ok a ↔ x = .ok a := by
  cases x <;> simp [Except.mapError]

end

namespace Matrix

theorem setCell_inside (hi : i < m.rows) (hj : j < m.cols) (hk : i * m.cols + j < m.data.size) (c : Cell) :
    m.setCell i j c = .ok { m with data := m.data.set (i * m.cols + j) c hk } := by
  unfold setCell
  rw [if_pos ⟨hi, hj⟩, dif_pos hk]

theorem setCell_outside (h : ¬ (i < m.rows ∧ j < m.cols)) (c : Cell) :
    m.setCell i j c = .error (.outOfBounds i j m.rows m.cols) := if_neg h

/-- The matrix stores exactly its cells, and there can be as many. -/
structure Allocated (m : Matrix) : Prop where
  wellFormed : m.WellFormed
  lt_cellLimit : m.rows * m.cols < cellLimit

theorem allocated_empty : empty.Allocated := ⟨wellFormed_empty, by decide⟩

/-- A storage of the same size can be had again, as solving needs it for the assignment. -/
theorem Allocated.allocate_eq (h : m.Allocated) (a : Arithmetic) :
    allocate a m.rows m.cols = .ok (zeros m.rows m.cols) :=
  allocate_of_lt_cellLimit a h.lt_cellLimit

theorem Allocated.of_setCell (h : m.Allocated) {c : Cell} {m' : Matrix}
    (hc : m.setCell i j c = .ok m') : m'.Allocated := by
  by_cases hin : i < m.rows ∧ j < m.cols
  · have hk := h.wellFormed.complete.index_lt_size hin.1 hin.2
    rw [setCell_inside hin.1 hin.2 hk, Except.ok.injEq] at hc
    subst hc
    exact ⟨(Array.size_set hk).trans h.wellFormed, h.lt_cellLimit⟩
  · rw [setCell_outside hin] at hc
    cases hc

/-- Solving leaves two matrices of the same size. -/
theorem Allocated.of_solveSquare (h : m.Allocated) {s : SquareSolution}
    (hs : m.solveSquare.run.value = .ok s) : s.reduced.Allocated ∧ s.assignment.Allocated := by
  by_cases hq : m.rows = m.cols
  · rw [solveSquare_run hq h.wellFormed.complete, Except.ok.injEq] at hs
    subst hs
    rw [SquareSolution.reduced_ofOptimum h.wellFormed hq]
    have hlt : m.rows * m.rows < cellLimit := (congrArg (m.rows * ·) hq).trans_lt h.lt_cellLimit
    exact ⟨⟨wellFormed_ofFn _, hlt⟩, wellFormed_ofFn _, hlt⟩
  · rw [solveSquare_of_not_square hq] at hs
    cases hs

end Matrix

/-- A square that is there is padded as any other. -/
theorem Indexed.ofMatrix_of_padAllocated {o : Objective} {p : Padded} (h : padAllocated .checked m o = .ok p) :
    Padded.ofMatrix m o = .ok p ∧ max m.rows m.cols * max m.rows m.cols < cellLimit := by
  rw [← pad_eq]
  unfold padAllocated at h
  unfold pad
  by_cases he : m.isEmpty = true
  · rw [if_pos he] at h
    cases h
  · rw [if_neg he] at h ⊢
    cases hs : Matrix.allocate .checked (max m.rows m.cols) (max m.rows m.cols) with
    | error f =>
      simp only [hs] at h
      cases h
    | ok square =>
      obtain ⟨rfl, hlt⟩ := Matrix.eq_zeros_of_allocate hs
      simp only [hs] at h
      exact ⟨h, hlt⟩

/-- If products are checked, a change of a matrix that stores its cells comes to another one. -/
theorem Change.allocated_result (h : m.Allocated) {c : Change} {m' : Matrix}
    (hc : c.result .checked m = .ok m') : m'.Allocated := by
  cases c with
  | clear =>
    cases hc
    exact Matrix.allocated_empty
  | zeros rows cols =>
    obtain ⟨rfl, hlt⟩ := Matrix.eq_zeros_of_allocate (mapError_eq_ok.1 hc)
    exact ⟨Matrix.wellFormed_zeros rows cols, hlt⟩
  | ofRows rows =>
    obtain ⟨k, hk, hrows⟩ := exists_of_bind_ok hc
    obtain ⟨hr, rfl⟩ := Matrix.eq_of_ofRows_ok (mapError_eq_ok.1 hrows)
    exact ⟨Rows.wellFormed_matrix hr, (Arithmetic.eq_mul_of_cellCount (mapError_eq_ok.1 hk)).2⟩
  | setCell row col c => exact h.of_setCell (mapError_eq_ok.1 hc)
  | reduce =>
    obtain ⟨s, hs, rfl⟩ := map_eq_ok.1 (mapError_eq_ok.1 hc)
    exact (h.of_solveSquare hs).1
  | assign =>
    obtain ⟨s, hs, rfl⟩ := map_eq_ok.1 (mapError_eq_ok.1 hc)
    exact (h.of_solveSquare hs).2
  | pad o =>
    obtain ⟨p, hp, rfl⟩ := map_eq_ok.1 hc
    obtain ⟨hpad, hlt⟩ := Indexed.ofMatrix_of_padAllocated hp
    obtain ⟨hw, hrows, hcols⟩ := Padded.ofMatrix_shape hpad
    refine ⟨hw, ?_⟩
    rwa [hrows, hcols]

namespace Matrix

theorem Allocated.change (h : m.Allocated) (c : Change) : (m.change .checked c).Allocated := by
  unfold Matrix.change
  cases hc : c.result .checked m with
  | ok m' => exact Change.allocated_result h hc
  | error e => exact h

/-- All ways to read the position give the cell `c`. -/
structure ReadsAs (m : Matrix) (i j : Nat) (c : Cell) : Prop where
  lookup : m.lookup i j = .ok (some c)
  cell : m.cell i j = .ok c
  row : ∃ row, m.row i = .ok row ∧ row[j]? = some c
  toRows : ∃ rows row, m.toRows = .ok rows ∧ rows[i]? = some row ∧ row[j]? = some c

theorem cell_outside (h : ¬ (i < m.rows ∧ j < m.cols)) :
    m.cell i j = .error (.outOfBounds i j m.rows m.cols) := if_neg h

theorem Complete.readsAs (h : m.Complete) (hi : i < m.rows) (hj : j < m.cols) {c : Cell}
    (hc : m.data[i * m.cols + j]? = some c) : m.ReadsAs i j c := by
  have hslice : (m.slice i)[j]? = some c := (getElem?_slice i hj).trans hc
  constructor
  · unfold Matrix.lookup
    rw [if_pos ⟨hi, hj⟩, hc]
  · unfold Matrix.cell
    rw [if_pos ⟨hi, hj⟩, hc]
  · have hstored : (i + 1) * m.cols ≤ m.data.size := Nat.le_trans (Nat.mul_le_mul_right m.cols hi) h
    exact ⟨_, if_pos hstored, hslice⟩
  · refine ⟨_, m.slice i, if_pos h, ?_, hslice⟩
    unfold fullRows
    rw [fullRowCount_of_complete h, List.getElem?_map, List.getElem?_range hi]
    rfl

theorem Complete.exists_readsAs (h : m.Complete) (hi : i < m.rows) (hj : j < m.cols) :
    ∃ c, m.ReadsAs i j c := by
  obtain ⟨c, hc, -⟩ := h.exists_cell hi hj
  exact ⟨c, h.readsAs hi hj hc⟩

theorem Complete.cell_eq_ok_iff (h : m.Complete) :
    (∃ c, m.cell i j = .ok c) ↔ i < m.rows ∧ j < m.cols := by
  constructor
  · rintro ⟨c, hc⟩
    by_contra hout
    rw [cell_outside hout] at hc
    cases hc
  · rintro ⟨hi, hj⟩
    obtain ⟨c, hc⟩ := h.exists_readsAs hi hj
    exact ⟨c, hc.cell⟩

end Matrix

end LinearAssignment
