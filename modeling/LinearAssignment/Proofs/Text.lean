/-
The aligned text of a matrix, read back. The cells of a row are written one by one, a blank before each but
the first, and the width of a cell is that of the longest one. The decimal text of a cell holds no blank
and no newline, so the text falls into the lines of the rows again and a line into the texts of its cells,
which stand for these cells.
-/
import LinearAssignment.Matrix.Text
import LinearAssignment.Proofs.Json.Codec
import LinearAssignment.Proofs.Nesting
import Mathlib.Data.List.Induction
import Mathlib.Order.Bounds.Defs

namespace LinearAssignment

/-! ## Decimal text -/

namespace Decimal

theorem isDigit_or_minus_of_mem_ofInt {x : Int} {c : Char} (h : c ∈ ofInt x) :
    c.isDigit = true ∨ c = '-' := by
  cases x with
  | ofNat n => exact .inl (isDigit_of_mem_ofNat h)
  | negSucc n =>
    rcases List.mem_cons.1 h with rfl | h
    · exact .inr rfl
    · exact .inl (isDigit_of_mem_ofNat h)

theorem ofInt_ne_nil (x : Int) : ofInt x ≠ [] := by
  obtain ⟨c, l, h, -⟩ := exists_cons_ofInt x
  rw [h]
  exact List.cons_ne_nil c l

end Decimal

namespace Cell

/-- The cell that a decimal text stands for. -/
def ofText? (s : List Char) : Option Cell := (Decimal.toInt? s).bind ofInt?

/-- The text of a cell at the right end of a field. -/
def field (width : Nat) (c : Cell) : List Char := (text c).leftpad width ' '

theorem ofText?_text (c : Cell) : ofText? (text c) = some c := by
  unfold ofText? text
  rw [Decimal.toInt?_ofInt, Option.bind_some, ofInt?_toInt]

theorem not_mem_text {x : Char} (hd : x.isDigit = false) (hx : x ≠ '-') (c : Cell) : x ∉ text c := by
  intro h
  rcases Decimal.isDigit_or_minus_of_mem_ofInt h with h | h
  · rw [hd] at h
    cases h
  · exact hx h

theorem mem_field {width : Nat} {c : Cell} {x : Char} (h : x ∈ field width c) : x = ' ' ∨ x ∈ text c := by
  rcases List.mem_append.1 h with h | h
  · exact .inl (List.eq_of_mem_replicate h)
  · exact .inr h

theorem length_field {width : Nat} {c : Cell} (h : (text c).length ≤ width) :
    (field width c).length = width := by
  unfold field
  rw [List.length_leftpad, Nat.max_eq_left h]

end Cell

/-! ## Words -/

/-- The parts of a text between runs of blanks. -/
def words (s : List Char) : List (List Char) := (s.splitOn ' ').filter (· ≠ [])

section
variable {s t : List Char}

theorem words_append_blank : words (s ++ ' ' :: t) = words s ++ words t := by
  unfold words
  rw [List.splitOn_append_cons_self, List.filter_append]

theorem words_of_no_blank (hs : ' ' ∉ s) (hne : s ≠ []) : words s = [s] := by
  unfold words
  rw [List.splitOn_eq_singleton hs]
  simp [hne]

theorem words_blanks_append (k : Nat) : words (List.replicate k ' ' ++ s) = words s := by
  induction k with
  | zero => rfl
  | succ k ih =>
    rw [List.replicate_succ, List.cons_append, ← List.nil_append (' ' :: _), words_append_blank, ih]
    rfl

theorem words_field (width : Nat) (c : Cell) : words (Cell.field width c) = [Cell.text c] := by
  unfold Cell.field List.leftpad
  rw [words_blanks_append, words_of_no_blank (Cell.not_mem_text rfl (by decide) c)
    (Decimal.ofInt_ne_nil c.toInt)]

end

namespace Matrix

variable {m : Matrix} {width : Nat}

/-! ## Lines -/

theorem line_nil : line width [] = [] := rfl

theorem line_singleton (c : Cell) : line width [c] = Cell.field width c := List.intercalate_singleton

theorem line_cons_cons (c d : Cell) (row : List Cell) :
    line width (c :: d :: row) = Cell.field width c ++ ' ' :: line width (d :: row) := by
  unfold line
  rw [List.map_cons, List.map_cons, List.intercalate_cons_cons, List.append_assoc]
  rfl

/-- One more cell at the end of a line that has cells. -/
theorem line_concat (row : List Cell) (hne : row ≠ []) (c : Cell) :
    line width (row ++ [c]) = line width row ++ ' ' :: Cell.field width c := by
  induction row using List.twoStepInduction with
  | nil => exact absurd rfl hne
  | singleton d => rw [List.singleton_append, line_cons_cons, line_singleton, line_singleton]
  | cons_cons d e row _ ih =>
    have hrest := ih e (List.cons_ne_nil e row)
    rw [List.cons_append] at hrest
    rw [List.cons_append, List.cons_append, line_cons_cons, line_cons_cons, hrest, List.append_assoc,
      List.cons_append]

theorem words_line (row : List Cell) : words (line width row) = row.map Cell.text := by
  induction row using List.twoStepInduction with
  | nil => rfl
  | singleton c =>
    rw [line_singleton]
    exact words_field width c
  | cons_cons c d row _ ih =>
    rw [line_cons_cons, words_append_blank, words_field, ih d]
    rfl

theorem not_mem_line {x : Char} (hd : x.isDigit = false) (hx : x ≠ '-') (hb : x ≠ ' ') (row : List Cell) :
    x ∉ line width row := by
  have hfield : ∀ c, x ∉ Cell.field width c := by
    intro c h
    rcases Cell.mem_field h with h | h
    · exact hb h
    · exact Cell.not_mem_text hd hx c h
  induction row using List.twoStepInduction with
  | nil => exact List.not_mem_nil
  | singleton c =>
    rw [line_singleton]
    exact hfield c
  | cons_cons c d row _ ih =>
    rw [line_cons_cons, List.mem_append, List.mem_cons]
    rintro (h | h | h)
    · exact hfield c h
    · exact hb h
    · exact ih d h

section
variable {row : List Cell}

theorem length_line (h : ∀ c ∈ row, (Cell.text c).length ≤ width) :
    (line width row).length = row.length * width + (row.length - 1) := by
  induction row using List.twoStepInduction with
  | nil => simp [line_nil]
  | singleton c =>
    rw [line_singleton, Cell.length_field (h c List.mem_cons_self)]
    simp
  | cons_cons c d row _ ih =>
    obtain ⟨hc, hrow⟩ := List.forall_mem_cons.1 h
    rw [line_cons_cons, List.length_append, List.length_cons, ih d hrow, Cell.length_field hc]
    simp only [List.length_cons, Nat.succ_mul]
    omega

/-- A line starts with the field of its first cell. -/
theorem take_line {c : Cell} (h : (Cell.text c).length ≤ width) :
    (line width (c :: row)).take width = Cell.field width c := by
  have hfield := Cell.length_field h
  cases row with
  | nil =>
    rw [line_singleton]
    exact List.take_of_length_le (Nat.le_of_eq hfield)
  | cons d row =>
    rw [line_cons_cons]
    exact List.take_left' hfield

theorem drop_line {c d : Cell} (h : (Cell.text c).length ≤ width) :
    (line width (c :: d :: row)).drop (width + 1) = line width (d :: row) := by
  rw [line_cons_cons, ← List.drop_drop, List.drop_left' (Cell.length_field h)]
  rfl

/-- The cells of a line stand side by side in fields of one width, with a blank between any two. -/
theorem take_drop_line (h : ∀ c ∈ row, (Cell.text c).length ≤ width) {j : Nat} {c : Cell}
    (hj : row[j]? = some c) :
    ((line width row).drop (j * (width + 1))).take width = Cell.field width c := by
  induction row generalizing j with
  | nil => cases hj
  | cons d row ih =>
    obtain ⟨hd, hrow⟩ := List.forall_mem_cons.1 h
    cases j with
    | zero =>
      obtain rfl := Option.some.inj hj
      rw [Nat.zero_mul]
      exact take_line hd
    | succ j =>
      cases row with
      | nil => cases hj
      | cons e row =>
        rw [Nat.succ_mul, Nat.add_comm, ← List.drop_drop, drop_line hd]
        exact ih hrow hj

end

/-! ## Writing cell by cell -/

/-- A cell written in its column: every column but the first starts with a blank. -/
def putCell (width : Nat) (out : List Char) (p : Cell × Nat) : List Char :=
  (if 0 < p.2 then out ++ [' '] else out) ++ Cell.field width p.1

/-- A row written cell by cell, and its end. -/
def putLine (width : Nat) (out : List Char) (row : List Cell) : List Char :=
  row.zipIdx.foldl (putCell width) out ++ ['\n']

/-- The rows of the shape written one by one. -/
def print (m : Matrix) : Except Fault (List Char) :=
  (List.range m.rows).foldlM (fun out i => (m.row i).bind fun row => .ok (putLine m.cellWidth out row)) []

/-- After the cells of a line, one more cell makes the line of all of them. -/
theorem putCell_line (out : List Char) (before : List Cell) (c : Cell) :
    putCell width (out ++ line width before) (c, before.length) = out ++ line width (before ++ [c]) := by
  unfold putCell
  cases before with
  | nil => simp [line_nil, line_singleton]
  | cons d before =>
    rw [line_concat (d :: before) (List.cons_ne_nil d before)]
    simp

theorem foldl_putCell (width : Nat) (out : List Char) (before row : List Cell) :
    (row.zipIdx before.length).foldl (putCell width) (out ++ line width before) =
      out ++ line width (before ++ row) := by
  induction row generalizing before with
  | nil => rw [List.append_nil]; rfl
  | cons c row ih =>
    have hrest := ih (before ++ [c])
    rw [List.length_append, List.append_assoc] at hrest
    rw [List.zipIdx_cons, List.foldl_cons, putCell_line]
    exact hrest

/-- A row written cell by cell is its joined line. -/
theorem putLine_eq (out : List Char) (row : List Cell) :
    putLine width out row = out ++ (line width row ++ ['\n']) := by
  have hrow := foldl_putCell width out [] row
  rw [line_nil, List.append_nil, List.nil_append] at hrow
  exact (congrArg (· ++ ['\n']) hrow).trans (List.append_assoc ..)

theorem foldlM_putLine (l : List Nat) (out : List Char) :
    l.foldlM (fun out i => (.ok (putLine width out (m.slice i)) : Except Fault (List Char))) out =
      .ok (out ++ (l.map m.slice).flatMap fun row => line width row ++ ['\n']) := by
  induction l generalizing out with
  | nil => simp [pure, Except.pure]
  | cons i l ih =>
    rw [List.foldlM_cons, List.map_cons, List.flatMap_cons, ← List.append_assoc, ← putLine_eq]
    exact ih (putLine width out (m.slice i))

/-- The loop over rows and cells writes the text, and fails where a cell is missing. -/
theorem print_eq (m : Matrix) : m.print = if m.Complete then .ok m.text else .error .missingCells := by
  unfold print
  rw [foldlM_row fun out _ row => .ok (putLine m.cellWidth out row), foldlM_putLine, List.nil_append]
  rfl

/-! ## Reading back -/

theorem splitOn_lines (lines : List (List Char)) (h : ∀ l ∈ lines, '\n' ∉ l) :
    (lines.flatMap (· ++ ['\n'])).splitOn '\n' = lines ++ [[]] := by
  induction lines with
  | nil => exact List.splitOn_nil '\n'
  | cons l lines ih =>
    obtain ⟨hl, hlines⟩ := List.forall_mem_cons.1 h
    rw [List.flatMap_cons, List.append_assoc, List.singleton_append,
      List.splitOn_append_cons_self_of_not_mem hl, ih hlines]
    rfl

/-- The cells of a line: the words between its blanks, each read as a decimal integer. -/
def readLine? (line : List Char) : Option (List Cell) := (words line).mapM Cell.ofText?

theorem readLine?_line (row : List Cell) : readLine? (line width row) = some row := by
  unfold readLine?
  rw [words_line, mapM_map_eq_some (k := id) fun c _ => Cell.ofText?_text c, List.map_id]

theorem mapM_readLine? (width : Nat) (rows : List (List Cell)) :
    (rows.map (line width)).mapM readLine? = some rows := by
  rw [mapM_map_eq_some (k := id) fun row _ => readLine?_line row, List.map_id]

/-! ## Width -/

/-- The lengths of the decimal texts of the cells. -/
def textLengths (m : Matrix) : Set Nat := {k | ∃ c ∈ m.data.toList, (Cell.text c).length = k}

theorem isGreatest_cellWidth (h : m.data.toList ≠ []) : IsGreatest m.textLengths m.cellWidth := by
  unfold cellWidth
  cases hmax : (m.data.toList.map fun c => (Cell.text c).length).max? with
  | none => exact absurd (List.map_eq_nil_iff.1 (List.max?_eq_none_iff.1 hmax)) h
  | some k =>
    obtain ⟨hk, hle⟩ := List.max?_eq_some_iff.1 hmax
    refine ⟨List.mem_map.1 hk, ?_⟩
    rintro l ⟨c, hc, rfl⟩
    exact hle _ (List.mem_map_of_mem hc)

theorem length_text_le_cellWidth {c : Cell} (hc : c ∈ m.data.toList) :
    (Cell.text c).length ≤ m.cellWidth :=
  (isGreatest_cellWidth (List.ne_nil_of_mem hc)).2 ⟨c, hc, rfl⟩

/-! ## The text -/

theorem text_eq (m : Matrix) : m.text = (m.fullRows.map (line m.cellWidth)).flatMap (· ++ ['\n']) := by
  unfold text
  rw [List.flatMap_map]

theorem splitOn_text (m : Matrix) :
    m.text.splitOn '\n' = m.fullRows.map (line m.cellWidth) ++ [[]] := by
  rw [text_eq]
  refine splitOn_lines _ fun l hl => ?_
  obtain ⟨row, -, rfl⟩ := List.mem_map.1 hl
  exact not_mem_line rfl (by decide) (by decide) row

theorem fullRows_eq_of_text_eq {m' : Matrix} (h : m.text = m'.text) : m.fullRows = m'.fullRows := by
  have hlines := splitOn_text m
  rw [h, splitOn_text m', List.append_left_inj] at hlines
  have hread := mapM_readLine? m.cellWidth m.fullRows
  rw [← hlines, mapM_readLine?] at hread
  exact (Option.some.inj hread).symm

/-- Matrices that display the same have the same rows. -/
theorem toRows_eq_of_display_eq {m' : Matrix} (h : m.display = m'.display) : m.toRows = m'.toRows := by
  unfold display at h
  unfold toRows
  by_cases hm : m.Complete
  · by_cases hm' : m'.Complete
    · rw [if_pos hm, if_pos hm', Except.ok.injEq, String.ofList_inj] at h
      rw [if_pos hm, if_pos hm', fullRows_eq_of_text_eq h]
    · rw [if_pos hm, if_neg hm'] at h
      cases h
  · by_cases hm' : m'.Complete
    · rw [if_neg hm, if_pos hm'] at h
      cases h
    · rw [if_neg hm, if_neg hm']

theorem length_text_le_of_mem_fullRows {row : List Cell} (hr : row ∈ m.fullRows) :
    ∀ c ∈ row, (Cell.text c).length ≤ m.cellWidth :=
  fun _ hc => length_text_le_cellWidth (mem_data_of_mem_fullRows hr hc)

/-- The text `s` of the matrix consists of the given lines, one for each row, and tells all its cells. -/
structure Displays (m : Matrix) (s : List Char) (lines : List (List Char)) : Prop where
  cell_by_cell : m.print = .ok s
  ended : s = lines.flatMap (· ++ ['\n'])
  split : s.splitOn '\n' = lines ++ [[]]
  count : lines.length = m.rows
  width : 0 < m.cols → ∀ l ∈ lines, IsGreatest m.textLengths m.cellWidth ∧
    l.length = m.cols * m.cellWidth + (m.cols - 1)
  blank : m.cols = 0 → ∀ l ∈ lines, l = []
  /-- Below each other stand the fields of the cells of one column. -/
  aligned : ∀ i j l c, lines[i]? = some l → m.cell i j = .ok c →
    (l.drop (j * (m.cellWidth + 1))).take m.cellWidth = Cell.field m.cellWidth c
  reads : ∃ rows, m.toRows = .ok rows ∧ lines.mapM readLine? = some rows

/-- The text of a matrix loses no cell. -/
theorem display_readsBack (m : Matrix) (hm : m.WellFormed) :
    ∃ s lines, m.display = .ok s ∧ m.Displays s.toList lines := by
  refine ⟨String.ofList m.text, m.fullRows.map (line m.cellWidth), if_pos hm.complete, ?_⟩
  rw [String.toList_ofList]
  constructor
  · exact (print_eq m).trans (if_pos hm.complete)
  · exact text_eq m
  · exact splitOn_text m
  · rw [List.length_map, length_fullRows, fullRowCount_of_complete hm.complete]
  · intro hcols l hl
    obtain ⟨row, hr, rfl⟩ := List.mem_map.1 hl
    have hlen := hm.length_of_mem_fullRows hr
    obtain ⟨c, hc⟩ := List.exists_mem_of_length_pos (hlen ▸ hcols)
    refine ⟨isGreatest_cellWidth (List.ne_nil_of_mem (mem_data_of_mem_fullRows hr hc)), ?_⟩
    rw [length_line (length_text_le_of_mem_fullRows hr), hlen]
  · intro hcols l hl
    obtain ⟨row, hr, rfl⟩ := List.mem_map.1 hl
    rw [List.eq_nil_of_length_eq_zero ((hm.length_of_mem_fullRows hr).trans hcols)]
    rfl
  · intro i j l c hl hc
    rw [List.getElem?_map] at hl
    obtain ⟨row, hrow, rfl⟩ := Option.map_eq_some_iff.1 hl
    have hfits := length_text_le_of_mem_fullRows (List.mem_of_getElem? hrow)
    rw [eq_slice_of_getElem?_fullRows hrow] at hfits ⊢
    exact take_drop_line hfits (getElem?_slice_of_cell hc)
  · exact ⟨m.fullRows, if_pos hm.complete, mapM_readLine? m.cellWidth m.fullRows⟩

/-- The widest text is that of the least cell there is, and the matrix has a column of one digit. -/
theorem display_readsBack_extremes :
    (⟨2, 3, #[Int64.minValue, 0, -7, 10, 5, Int64.maxValue]⟩ : Matrix).WellFormed ∧
      ∃ s lines, (⟨2, 3, #[Int64.minValue, 0, -7, 10, 5, Int64.maxValue]⟩ : Matrix).display = .ok s ∧
        Displays ⟨2, 3, #[Int64.minValue, 0, -7, 10, 5, Int64.maxValue]⟩ s.toList lines :=
  ⟨by decide, display_readsBack ⟨2, 3, #[Int64.minValue, 0, -7, 10, 5, Int64.maxValue]⟩ (by decide)⟩

example : (⟨2, 2, #[1, 10, -5, 2]⟩ : Matrix).display = .ok " 1 10\n-5  2\n" := by decide

end Matrix

end LinearAssignment
