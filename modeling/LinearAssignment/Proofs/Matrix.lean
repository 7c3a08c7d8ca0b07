/-
Entries of matrices. A matrix made from a function has the values of the function as its entries; a
well-formed matrix has a cell for each entry, and its full rows hold exactly its cells. The spread
of a matrix is the distance between its largest and its smallest cell.
-/
import LinearAssignment.Matrix.Basic
import Mathlib.Algebra.Order.Ring.Nat

namespace LinearAssignment.Matrix

/-! ## Places in the storage -/

theorem index_lt {rows cols i j : Nat} (hi : i < rows) (hj : j < cols) : i * cols + j < rows * cols :=
  calc i * cols + j < i * cols + cols := Nat.add_lt_add_left hj _
    _ = (i + 1) * cols := (Nat.succ_mul i cols).symm
    _ ≤ rows * cols := Nat.mul_le_mul_right cols hi

theorem index_div {cols i j : Nat} (hj : j < cols) : (i * cols + j) / cols = i := by
  rw [Nat.mul_comm, Nat.mul_add_div (Nat.zero_lt_of_lt hj), Nat.div_eq_of_lt hj, Nat.add_zero]

theorem index_mod {cols i j : Nat} (hj : j < cols) : (i * cols + j) % cols = j := by
  rw [Nat.mul_comm, Nat.mul_add_mod, Nat.mod_eq_of_lt hj]

/-- The position at a place of the storage. -/
theorem eq_index_iff {cols i j k : Nat} (hj : j < cols) : k = i * cols + j ↔ k / cols = i ∧ k % cols = j := by
  constructor
  · rintro rfl
    exact ⟨index_div hj, index_mod hj⟩
  · rintro ⟨rfl, rfl⟩
    exact (Nat.div_add_mod' k cols).symm

theorem getElem?_data_ofFn {rows cols : Nat} (f : Fin rows → Fin cols → Cell) (i : Fin rows)
    (j : Fin cols) : (ofFn rows cols f).data[i.val * cols + j.val]? = some (f i j) := by
  unfold ofFn
  rw [Array.getElem?_ofFn, dif_pos (index_lt i.isLt j.isLt)]
  simp only [index_div j.isLt, index_mod j.isLt]

theorem entry_ofFn {rows cols : Nat} (f : Fin rows → Fin cols → Cell) (i : Fin rows) (j : Fin cols) :
    (ofFn rows cols f).entry i j = (f i j).toInt := by
  have hcell : (ofFn rows cols f).data[i.val * (ofFn rows cols f).cols + j.val]? = some (f i j) :=
    getElem?_data_ofFn f i j
  unfold entry
  rw [Array.getD_eq_getD_getElem?, hcell, Option.getD_some]

/-! ## Cells of the shape -/

variable {m : Matrix} {i j : Nat}

theorem Complete.index_lt_size (h : m.Complete) (hi : i < m.rows) (hj : j < m.cols) :
    i * m.cols + j < m.data.size := Nat.lt_of_lt_of_le (index_lt hi hj) h

theorem Complete.exists_cell (h : m.Complete) (hi : i < m.rows) (hj : j < m.cols) :
    ∃ c, m.data[i * m.cols + j]? = some c ∧ c.toInt = m.entry i j := by
  have hk := h.index_lt_size hi hj
  refine ⟨m.data[i * m.cols + j], Array.getElem?_eq_getElem hk, ?_⟩
  unfold entry
  rw [Array.getD_eq_getD_getElem?, Array.getElem?_eq_getElem hk, Option.getD_some]

theorem Complete.exists_cell_eq (h : m.Complete) (hi : i < m.rows) (hj : j < m.cols) :
    ∃ c, m.cell i j = .ok c ∧ c.toInt = m.entry i j := by
  obtain ⟨c, hc, he⟩ := h.exists_cell hi hj
  refine ⟨c, ?_, he⟩
  unfold cell
  rw [if_pos ⟨hi, hj⟩, hc]

theorem WellFormed.exists_cell (h : m.WellFormed) (hi : i < m.rows) (hj : j < m.cols) :
    ∃ c, m.data[i * m.cols + j]? = some c ∧ c.toInt = m.entry i j := h.complete.exists_cell hi hj

theorem WellFormed.exists_cell_eq (h : m.WellFormed) (hi : i < m.rows) (hj : j < m.cols) :
    ∃ c, m.cell i j = .ok c ∧ c.toInt = m.entry i j := h.complete.exists_cell_eq hi hj

theorem WellFormed.cell_eq_ok_iff (h : m.WellFormed) (hi : i < m.rows) (hj : j < m.cols) {c : Cell} :
    m.cell i j = .ok c ↔ m.entry i j = c.toInt := by
  obtain ⟨d, hd, hv⟩ := h.exists_cell_eq hi hj
  rw [hd, Except.ok.injEq, ← Int64.toInt_inj, hv]

theorem isEmpty_iff : m.isEmpty = true ↔ m.rows = 0 ∨ m.cols = 0 := by simp [isEmpty]

theorem isEmpty_eq_true_iff : m.isEmpty = true ↔ min m.rows m.cols = 0 := by
  rw [isEmpty_iff]
  omega

theorem isEmpty_eq_false_iff : m.isEmpty = false ↔ min m.rows m.cols ≠ 0 := by
  rw [← Bool.not_eq_true, isEmpty_eq_true_iff]

/-! ## Cells of a row -/

theorem getElem?_slice (i : Nat) (hj : j < m.cols) : (m.slice i)[j]? = m.data[i * m.cols + j]? := by
  have hend : (i + 1) * m.cols = i * m.cols + m.cols := Nat.succ_mul i m.cols
  unfold slice
  rw [Array.getElem?_toList, Array.getElem?_extract]
  split
  · rfl
  · next h => exact (Array.getElem?_eq_none (by omega)).symm

theorem getElem?_slice_of_le (i : Nat) (hj : m.cols ≤ j) : (m.slice i)[j]? = none := by
  have hend : (i + 1) * m.cols = i * m.cols + m.cols := Nat.succ_mul i m.cols
  unfold slice
  rw [Array.getElem?_toList, Array.getElem?_extract, if_neg (by omega)]

theorem getElem?_slice_of_cell {c : Cell} (h : m.cell i j = .ok c) : (m.slice i)[j]? = some c := by
  unfold cell at h
  split at h
  · next hin =>
    rw [getElem?_slice i hin.2]
    split at h
    · next d hd => rw [hd, Except.ok.inj h]
    · cases h
  · cases h

theorem length_slice (h : (i + 1) * m.cols ≤ m.data.size) : (m.slice i).length = m.cols := by
  have hend : (i + 1) * m.cols = i * m.cols + m.cols := Nat.succ_mul i m.cols
  unfold slice
  rw [Array.length_toList, Array.size_extract]
  omega

theorem fullRowCount_le (m : Matrix) : m.fullRowCount ≤ m.rows := by
  unfold fullRowCount
  split
  · exact Nat.le_refl _
  · exact Nat.min_le_left _ _

theorem stored_of_lt_fullRowCount (hi : i < m.fullRowCount) : (i + 1) * m.cols ≤ m.data.size := by
  unfold fullRowCount at hi
  split at hi
  · next h => simp [h]
  · next h => exact (Nat.le_div_iff_mul_le (Nat.pos_of_ne_zero h)).1 (by omega)

theorem cols_pos_of_missing (h : ¬ m.Complete) : 0 < m.cols := by
  refine Nat.pos_of_ne_zero fun h0 => h ?_
  unfold Complete
  rw [h0, Nat.mul_zero]
  exact Nat.zero_le _

theorem fullRowCount_of_missing (h : ¬ m.Complete) :
    m.fullRowCount = m.data.size / m.cols ∧ m.data.size / m.cols < m.rows := by
  have hcols := cols_pos_of_missing h
  have hlt : m.data.size / m.cols < m.rows :=
    (Nat.div_lt_iff_lt_mul hcols).2 (Nat.lt_of_not_le h)
  unfold fullRowCount
  exact ⟨by rw [if_neg (Nat.ne_of_gt hcols), Nat.min_eq_right (Nat.le_of_lt hlt)], hlt⟩

/-- The first row that is not full has cells missing. -/
theorem not_stored_fullRowCount (h : ¬ m.Complete) :
    m.fullRowCount < m.rows ∧ ¬ (m.fullRowCount + 1) * m.cols ≤ m.data.size := by
  obtain ⟨hcount, hlt⟩ := fullRowCount_of_missing h
  rw [hcount]
  exact ⟨hlt, Nat.not_le.2 ((Nat.div_lt_iff_lt_mul (cols_pos_of_missing h)).1 (Nat.lt_succ_self _))⟩

/-- Where a cell is missing, the rows are the full ones, one that is not full, and others. -/
theorem exists_range_rows (h : ¬ m.Complete) :
    ∃ l, List.range m.rows = List.range m.fullRowCount ++ m.fullRowCount :: l := by
  obtain ⟨k, hk⟩ := Nat.exists_eq_add_of_lt (not_stored_fullRowCount h).1
  refine ⟨List.range' (m.fullRowCount + 1) k, ?_⟩
  rw [hk, Nat.add_assoc, List.range_eq_range', List.range_eq_range', ← List.range'_succ,
    ← List.range'_append_1, Nat.zero_add]

section
variable {σ : Type} (body : σ → Nat → List Cell → Except Fault σ)

theorem foldlM_full_row {l : List Nat} (hl : ∀ i ∈ l, i < m.fullRowCount) (s : σ) :
    l.foldlM (fun s i => (m.row i).bind (body s i)) s =
      l.foldlM (fun s i => body s i (m.slice i)) s := by
  induction l generalizing s with
  | nil => rfl
  | cons i l ih =>
    have hrow : m.row i = .ok (m.slice i) := if_pos (stored_of_lt_fullRowCount (hl i List.mem_cons_self))
    rw [List.foldlM_cons, List.foldlM_cons, hrow]
    exact congrArg _ (funext (ih fun k hk => hl k (List.mem_cons_of_mem _ hk)))

/-- A loop that slices the rows of the shape one by one gets through the full rows, and further only if
no cell is missing. -/
theorem foldlM_row (s : σ) :
    (List.range m.rows).foldlM (fun s i => (m.row i).bind (body s i)) s =
      ((List.range m.fullRowCount).foldlM (fun s i => body s i (m.slice i)) s).bind fun s =>
        if m.Complete then .ok s else .error .missingCells := by
  have hfull := foldlM_full_row (m := m) body (l := List.range m.fullRowCount) (fun i => List.mem_range.1) s
  by_cases hc : m.Complete
  · rw [← fullRowCount_of_complete hc, hfull]
    cases (List.range m.fullRowCount).foldlM (fun s i => body s i (m.slice i)) s with
    | error f => rfl
    | ok s => exact (if_pos hc).symm
  · obtain ⟨l, hl⟩ := exists_range_rows hc
    have hrow : m.row m.fullRowCount = .error .missingCells := if_neg (not_stored_fullRowCount hc).2
    rw [hl, List.foldlM_append, hfull]
    cases (List.range m.fullRowCount).foldlM (fun s i => body s i (m.slice i)) s with
    | error f => rfl
    | ok s =>
      show (m.fullRowCount :: l).foldlM (fun s i => (m.row i).bind (body s i)) s = _
      rw [List.foldlM_cons, hrow]
      exact (if_neg hc).symm

end

theorem WellFormed.fullRows (h : m.WellFormed) : m.fullRows = (List.range m.rows).map m.slice := by
  unfold Matrix.fullRows
  rw [fullRowCount_of_complete h.complete]

theorem eq_slice_of_getElem?_fullRows {row : List Cell} (h : m.fullRows[i]? = some row) :
    row = m.slice i := by
  obtain ⟨hi, rfl⟩ := List.getElem?_eq_some_iff.1 h
  simp [Matrix.fullRows]

theorem mem_data_of_mem_slice {c : Cell} (hc : c ∈ m.slice i) : c ∈ m.data.toList := by
  obtain ⟨j, hj⟩ := List.mem_iff_getElem?.1 hc
  rcases Nat.lt_or_ge j m.cols with hlt | hge
  · rw [getElem?_slice i hlt, ← Array.getElem?_toList] at hj
    exact List.mem_iff_getElem?.2 ⟨_, hj⟩
  · rw [getElem?_slice_of_le i hge] at hj
    cases hj

theorem mem_data_of_mem_fullRows {row : List Cell} (hr : row ∈ m.fullRows) {c : Cell} (hc : c ∈ row) :
    c ∈ m.data.toList := by
  obtain ⟨i, -, rfl⟩ := List.mem_map.1 hr
  exact mem_data_of_mem_slice hc

theorem WellFormed.mem_data_iff (h : m.WellFormed) {c : Cell} :
    c ∈ m.data.toList ↔ ∃ row ∈ m.fullRows, c ∈ row := by
  constructor
  · -- the cell at index `k` is in row `k / cols`
    intro hc
    rw [h.fullRows]
    obtain ⟨k, hk⟩ := List.mem_iff_getElem?.1 hc
    rw [Array.getElem?_toList] at hk
    have hlt : k < m.rows * m.cols := h ▸ (Array.getElem?_eq_some_iff.1 hk).1
    have hj := mod_cols_lt ⟨k, hlt⟩
    refine ⟨_, List.mem_map_of_mem (List.mem_range.2 (div_cols_lt ⟨k, hlt⟩)), ?_⟩
    refine List.mem_iff_getElem?.2 ⟨k % m.cols, ?_⟩
    rw [getElem?_slice _ hj, Nat.mul_comm, Nat.div_add_mod, hk]
  · rintro ⟨row, hrow, hc⟩
    exact mem_data_of_mem_fullRows hrow hc

/-! ## Surplus cells -/

/-- The matrix without its surplus cells. -/
def trimmed (m : Matrix) : Matrix := { m with data := m.data.extract 0 (m.rows * m.cols) }

theorem Complete.wellFormed_trimmed (h : m.Complete) : m.trimmed.WellFormed := by
  show (m.data.extract 0 (m.rows * m.cols)).size = m.rows * m.cols
  rw [Array.size_extract, Nat.min_eq_left h, Nat.sub_zero]

theorem getElem?_data_trimmed {k : Nat} (hk : k < m.rows * m.cols) : m.trimmed.data[k]? = m.data[k]? := by
  show (m.data.extract 0 (m.rows * m.cols))[k]? = _
  rw [Array.getElem?_extract, Nat.zero_add]
  split
  · rfl
  · exact (Array.getElem?_eq_none (by omega)).symm

theorem entry_trimmed (hi : i < m.rows) (hj : j < m.cols) : m.trimmed.entry i j = m.entry i j := by
  show (m.trimmed.data.getD (i * m.cols + j) 0).toInt = (m.data.getD (i * m.cols + j) 0).toInt
  rw [Array.getD_eq_getD_getElem?, Array.getD_eq_getD_getElem?, getElem?_data_trimmed (index_lt hi hj)]

theorem slice_trimmed (hi : i < m.rows) : m.trimmed.slice i = m.slice i := by
  refine List.ext_getElem? fun j => ?_
  rcases Nat.lt_or_ge j m.cols with hj | hj
  · rw [getElem?_slice (m := m.trimmed) i hj, getElem?_slice i hj]
    exact getElem?_data_trimmed (index_lt hi hj)
  · rw [getElem?_slice_of_le (m := m.trimmed) i hj, getElem?_slice_of_le i hj]

theorem Complete.fullRows_trimmed (h : m.Complete) : m.trimmed.fullRows = m.fullRows := by
  unfold Matrix.fullRows
  rw [fullRowCount_of_complete h, fullRowCount_of_complete h.wellFormed_trimmed.complete]
  exact List.map_congr_left fun i hi => slice_trimmed (List.mem_range.1 hi)

/-! ## The largest and the smallest cell -/

theorem max_cell_def (a b : Cell) : max a b = if a ≤ b then b else a := rfl

instance : Std.LawfulOrderMax Cell := by
  refine .of_max_le_iff (fun a b c => ?_) fun a b => ?_
  · rw [max_cell_def]
    split
    · next h => exact ⟨fun hb => ⟨Int64.le_trans h hb, hb⟩, And.right⟩
    · next h =>
      have hba : b ≤ a := (Int64.le_total a b).resolve_left h
      exact ⟨fun ha => ⟨ha, Int64.le_trans hba ha⟩, And.left⟩
  · rw [max_cell_def]
    split
    · exact Or.inr rfl
    · exact Or.inl rfl

/-- The value of the largest cell, `0` if there is none. -/
def top (m : Matrix) : Int := (m.max?.getD 0).toInt

/-- The value of the smallest cell, `0` if there is none. -/
def bottom (m : Matrix) : Int := (m.data.toList.min?.getD 0).toInt

/-- The distance between the largest and the smallest cell. -/
def spread (m : Matrix) : Int := m.top - m.bottom

theorem le_top {c : Cell} (hc : c ∈ m.data.toList) : c.toInt ≤ m.top := by
  unfold top max?
  cases hm : m.data.toList.max? with
  | none => rw [List.max?_eq_none_iff.1 hm] at hc; cases hc
  | some a => exact Int64.le_iff_toInt_le.1 ((List.max?_eq_some_iff.1 hm).2 c hc)

theorem bottom_le {c : Cell} (hc : c ∈ m.data.toList) : m.bottom ≤ c.toInt := by
  unfold bottom
  cases hm : m.data.toList.min? with
  | none => rw [List.min?_eq_none_iff.1 hm] at hc; cases hc
  | some a => exact Int64.le_iff_toInt_le.1 ((List.min?_eq_some_iff.1 hm).2 c hc)

theorem Complete.entry_mem (hm : m.Complete) (hi : i < m.rows) (hj : j < m.cols) :
    m.bottom ≤ m.entry i j ∧ m.entry i j ≤ m.top := by
  obtain ⟨x, hx, hv⟩ := hm.exists_cell hi hj
  have hmem : x ∈ m.data.toList := Array.mem_toList_iff.2 (Array.mem_of_getElem? hx)
  rw [← hv]
  exact ⟨bottom_le hmem, le_top hmem⟩

theorem WellFormed.entry_mem (hw : m.WellFormed) (hi : i < m.rows) (hj : j < m.cols) :
    m.bottom ≤ m.entry i j ∧ m.entry i j ≤ m.top := hw.complete.entry_mem hi hj

/-- Where there are cells, the least of them lies farthest below a number. -/
theorem lt_sub_bottom_iff (h : m.data.toList ≠ []) {t b : Int} :
    b < t - m.bottom ↔ ∃ c ∈ m.data.toList, b < t - c.toInt := by
  constructor
  · intro hlt
    cases hm : m.data.toList.min? with
    | none => exact absurd (List.min?_eq_none_iff.1 hm) h
    | some a =>
      refine ⟨a, (List.min?_eq_some_iff.1 hm).1, ?_⟩
      rw [bottom, hm] at hlt
      exact hlt
  · rintro ⟨c, hc, hlt⟩
    have := bottom_le hc
    omega

theorem lt_spread_iff {b : Int} (hb : 0 ≤ b) :
    b < m.spread ↔ ∃ c ∈ m.data.toList, b < m.top - c.toInt := by
  by_cases h : m.data.toList = []
  · have hspread : m.spread = 0 := by simp [spread, top, bottom, max?, h]
    rw [hspread, h]
    simpa using hb
  · exact lt_sub_bottom_iff h

end LinearAssignment.Matrix
