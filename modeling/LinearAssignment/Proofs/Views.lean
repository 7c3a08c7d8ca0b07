/-
The views of a solution. Its matrices are squares on the longer side of the problem. Its pairs are the
positions of the assignment's 1s inside the shape, in ascending order of their rows, and as these are
as many as the shape allows, the rows and columns without a pair are what the shorter side lacks.
-/
import LinearAssignment.Proofs.Outcome
import LinearAssignment.Proofs.RowMap

namespace LinearAssignment

/-- Different numbers below `n`, and the numbers below `n` that are not among them, are all numbers
below `n`. -/
theorem perm_append_filter_range {n : Nat} {l : List Nat} (hd : l.Nodup) (hl : ∀ x ∈ l, x < n) :
    (l ++ (List.range n).filter (· ∉ l)).Perm (List.range n) := by
  have hnodup : (l ++ (List.range n).filter (· ∉ l)).Nodup := by
    refine List.nodup_append.2 ⟨hd, List.nodup_range.filter _, ?_⟩
    rintro a ha b hb rfl
    have := (List.mem_filter.1 hb).2
    simp [ha] at this
  refine (List.perm_ext_iff_of_nodup hnodup List.nodup_range).2 fun x => ?_
  simp only [List.mem_append, List.mem_filter, List.mem_range, decide_eq_true_eq]
  constructor
  · rintro (hx | ⟨hx, -⟩)
    · exact hl x hx
    · exact hx
  · intro hx
    by_cases h : x ∈ l
    · exact .inl h
    · exact .inr ⟨hx, h⟩

/-- A well-formed matrix of the given shape. -/
structure Matrix.HasShape (a : Matrix) (rows cols : Nat) : Prop where
  wellFormed : a.WellFormed
  rows : a.rows = rows
  cols : a.cols = cols

namespace Solution

/-! ## Pairs of any solution -/

theorem columnOf?_eq_some_iff {s : Solution} (h : (s.pairs.map Prod.fst).Nodup) {r c : Nat} :
    s.columnOf? r = some c ↔ (r, c) ∈ s.pairs :=
  find?_fst_eq_some_iff h

theorem unassignedRows_eq (s : Solution) :
    s.unassignedRows = (List.range s.rows).filter (· ∉ s.pairs.map Prod.fst) := by
  refine List.filter_congr fun r _ => ?_
  rw [Bool.eq_iff_iff, Option.isNone_iff_eq_none, columnOf?, Option.map_eq_none_iff, List.find?_eq_none,
    decide_eq_true_eq, List.mem_map]
  simp only [decide_eq_true_eq, not_exists, not_and]

theorem unassignedCols_eq (s : Solution) :
    s.unassignedCols = (List.range s.cols).filter (· ∉ s.pairs.map Prod.snd) := by
  refine List.filter_congr fun c _ => ?_
  rw [Bool.eq_iff_iff, List.all_eq_true, decide_eq_true_eq, List.mem_map]
  simp only [decide_eq_true_eq, ne_eq, not_exists, not_and]

/-! ## Solutions that record a permutation -/

section
variable {m : Matrix} {o : Objective} {s : Solution} {p : Padded} {σ : Equiv.Perm (Fin p.matrix.rows)}

theorem Records.isPairing (h : s.Records m o p σ) : IsPairing m.rows m.cols s.pairs :=
  h.pairs ▸ insidePairs_isPairing h.stands.matrix_rows σ

theorem Records.isAssignment (h : s.Records m o p σ) : s.assignment.IsAssignment p.matrix.rows :=
  h.assignment ▸ Optimum.assignment_isAssignment h.colOf

theorem Records.hasShape_assignment (h : s.Records m o p σ) :
    s.assignment.HasShape (max m.rows m.cols) (max m.rows m.cols) := by
  have ha := h.isAssignment
  rw [h.stands.matrix_rows] at ha
  exact ⟨ha.wellFormed, ha.rows, ha.cols⟩

theorem Records.hasShape_reduced (h : s.Records m o p σ) :
    s.reduced.HasShape (max m.rows m.cols) (max m.rows m.cols) := by
  have hsquare : p.matrix.rows = p.matrix.cols :=
    h.stands.matrix_rows.trans h.stands.matrix_cols.symm
  rw [h.reduced, SquareSolution.reduced_ofOptimum h.stands.wellFormed hsquare]
  exact ⟨Matrix.wellFormed_ofFn _, h.stands.matrix_rows, h.stands.matrix_rows⟩

theorem Records.hasShape_square (h : s.Records m o p σ) :
    s.square.HasShape (max m.rows m.cols) (max m.rows m.cols) := by
  rw [h.square]
  exact ⟨h.stands.wellFormed, h.stands.matrix_rows, h.stands.matrix_cols⟩

/-- The pairs are the 1s inside the shape. -/
theorem Records.mem_pairs_iff (h : s.Records m o p σ) {r c : Nat} :
    (r, c) ∈ s.pairs ↔ r < m.rows ∧ c < m.cols ∧ s.assignment.cell r c = .ok 1 := by
  have hn := h.stands.matrix_rows
  have hone : ∀ i j : Fin p.matrix.rows, s.assignment.cell i j = .ok 1 ↔ σ i = j := by
    intro i j
    have ha := h.isAssignment
    rw [ha.wellFormed.cell_eq_ok_iff (by rw [ha.rows]; exact i.isLt) (by rw [ha.cols]; exact j.isLt),
      h.assignment]
    exact Optimum.entry_assignment_eq_one h.colOf i j
  rw [h.pairs, mem_insidePairs]
  constructor
  · rintro ⟨i, ⟨hi, hj⟩, e⟩
    obtain ⟨rfl, rfl⟩ := Prod.mk.inj e
    exact ⟨hi, hj, (hone i (σ i)).2 rfl⟩
  · rintro ⟨hr, hc, hcell⟩
    have hj := (hone ⟨r, by omega⟩ ⟨c, by omega⟩).1 hcell
    refine ⟨⟨r, by omega⟩, ?_⟩
    rw [hj]
    exact ⟨⟨hr, hc⟩, rfl⟩

theorem Records.perm_rows (h : s.Records m o p σ) :
    (s.pairs.map Prod.fst ++ s.unassignedRows).Perm (List.range m.rows) := by
  rw [unassignedRows_eq, h.rows]
  refine perm_append_filter_range h.isPairing.rows_nodup fun r hr => ?_
  obtain ⟨q, hq, rfl⟩ := List.mem_map.1 hr
  exact (h.isPairing.inside q hq).1

theorem Records.perm_cols (h : s.Records m o p σ) :
    (s.pairs.map Prod.snd ++ s.unassignedCols).Perm (List.range m.cols) := by
  rw [unassignedCols_eq, h.cols]
  refine perm_append_filter_range h.isPairing.cols_nodup fun c hc => ?_
  obtain ⟨q, hq, rfl⟩ := List.mem_map.1 hc
  exact (h.isPairing.inside q hq).2

/-! ## How the parts belong together -/

/-- The parts of a solution of `m` fit each other and `m`. -/
structure Coherent (s : Solution) (m : Matrix) : Prop where
  assignment : s.assignment.HasShape (max m.rows m.cols) (max m.rows m.cols)
  reduced : s.reduced.HasShape (max m.rows m.cols) (max m.rows m.cols)
  square : s.square.HasShape (max m.rows m.cols) (max m.rows m.cols)
  length : s.pairs.length = min m.rows m.cols
  ascending : s.pairs.Pairwise fun a b => a.1 < b.1
  cols_nodup : (s.pairs.map Prod.snd).Nodup
  inside : ∀ q ∈ s.pairs, q.1 < m.rows ∧ q.2 < m.cols
  columnOf : ∀ r c, s.columnOf? r = some c ↔
    r < m.rows ∧ c < m.cols ∧ s.assignment.cell r c = .ok 1
  allRows : (s.pairs.map Prod.fst ++ s.unassignedRows).Perm (List.range m.rows)
  allCols : (s.pairs.map Prod.snd ++ s.unassignedCols).Perm (List.range m.cols)
  unassignedRows : s.unassignedRows.length = m.rows - min m.rows m.cols
  unassignedCols : s.unassignedCols.length = m.cols - min m.rows m.cols
  total : s.total.toInt = m.pairSum s.pairs

theorem Records.length_unassigned (h : s.Records m o p σ) :
    s.unassignedRows.length = m.rows - min m.rows m.cols ∧
      s.unassignedCols.length = m.cols - min m.rows m.cols := by
  have hrows := h.perm_rows.length_eq
  have hcols := h.perm_cols.length_eq
  have hlen := h.isPairing.length_eq
  simp only [List.length_append, List.length_map, List.length_range] at hrows hcols
  omega

end

/-- Whatever is solved, the parts of the solution fit each other and the problem. -/
theorem coherent_of_solve {m : Matrix} {o : Objective} {s : Solution} (hm : m.WellFormed)
    (hs : (solve m o).run.value = .ok s) : s.Coherent m := by
  obtain ⟨p, σ, h⟩ := exists_records_of_solve_ok hm hs
  have hp := h.isPairing
  refine ⟨h.hasShape_assignment, h.hasShape_reduced, h.hasShape_square, hp.length_eq,
    h.pairs ▸ pairwise_insidePairs _ _ σ, hp.cols_nodup, hp.inside, fun r c => ?_, h.perm_rows,
    h.perm_cols, h.length_unassigned.1, h.length_unassigned.2, h.pairs ▸ h.total⟩
  rw [columnOf?_eq_some_iff hp.rows_nodup, h.mem_pairs_iff]

/-- More rows than columns: one row stays without a column. -/
def tallTable : Matrix := ⟨4, 3, #[1, 2, 3, 2, 4, 6, 3, 6, 9, 4, 8, 12]⟩

theorem coherent_tallTable : tallTable.WellFormed ∧
    ∃ s, (solve tallTable .maximizeUtility).run.value = .ok s ∧ s.Coherent tallTable := by
  have hm : tallTable.WellFormed := by decide
  have hok : (solve tallTable .maximizeUtility).run.value.toOption.isSome = true := by decide +kernel
  cases hs : (solve tallTable .maximizeUtility).run.value with
  | error e => rw [hs] at hok; cases hok
  | ok s => exact ⟨hm, s, rfl, coherent_of_solve hm hs⟩

end Solution

end LinearAssignment
