/-
Matrices that store too few or too many cells. Where a cell of the shape is missing, a fault is met, but
not before the costs of the full rows are computed, so a cost that fits into no cell is reported first.
Surplus cells are in nobody's way. They take part in one thing only, the search for the largest cell: with
a larger one the costs of all utilities rise by the same amount, which may be too much for a cell, but
changes nothing in what is best.
-/
import LinearAssignment.Proofs.Indexed.Solve

namespace LinearAssignment

variable {m : Matrix} {o : Objective}

/-! ## Missing cells -/

theorem Matrix.solveSquare_fault_iff (m : Matrix) : (∃ f, m.solveSquare.run.value = .error f) ↔
    m.rows ≠ m.cols ∨ m.data.size < m.rows * m.cols := by
  by_cases hs : m.rows = m.cols
  · by_cases hc : m.Complete
    · have hnot : ¬ (m.rows ≠ m.cols ∨ m.data.size < m.rows * m.cols) :=
        not_or.2 ⟨not_not.2 hs, Nat.not_lt.2 hc⟩
      rw [solveSquare_run hs hc]
      simp [hnot]
    · exact iff_of_true ⟨_, solveSquare_of_not_complete hs hc⟩ (.inr (Nat.lt_of_not_le hc))
  · exact iff_of_true ⟨_, solveSquare_of_not_square hs⟩ (.inl hs)

theorem Matrix.isEmpty_eq_false (hr : m.rows ≠ 0) (hc : m.cols ≠ 0) : m.isEmpty = false :=
  isEmpty_eq_false_iff.2 (by omega)

/-- A cost that is too large for a cell comes before a cell that is missing. -/
theorem solve_of_overruns (he : m.isEmpty = false) (h : o.Overruns m) :
    (solve m o).run.value = .error (.error (.overflow Activity.transforming)) := by
  have hp : Padded.ofMatrix m o = .error (.error (.overflow Activity.transforming)) := by
    unfold Padded.ofMatrix
    rw [if_neg (by simp [he]), Padded.costRows_of_overruns h]
  rw [solve_value, hp]
  rfl

theorem solve_of_missing (he : m.isEmpty = false) (h : ¬ o.Overruns m) (hm : ¬ m.Complete) :
    (solve m o).run.value = .error (.fault .missingCells) := by
  have hp : Padded.ofMatrix m o = .error (.fault .missingCells) := by
    unfold Padded.ofMatrix
    rw [if_neg (by simp [he]), Padded.costRows_of_not_overruns h]
    simp only [if_neg hm]
  rw [solve_value, hp]
  rfl

/-- The costs of the cells in the rows that are stored from end to end all fit into cells. -/
def Matrix.FullRowsFit (m : Matrix) : Prop :=
  ∀ i < m.data.size / m.cols, ∀ c ∈ m.slice i,
    Int64.minValue.toInt ≤ m.top - c.toInt ∧ m.top - c.toInt ≤ Int64.maxValue.toInt

theorem overruns_iff_of_missing (hm : ¬ m.Complete) :
    Objective.maximizeUtility.Overruns m ↔ ¬ m.FullRowsFit := by
  have hcount := (Matrix.fullRowCount_of_missing hm).1
  unfold Matrix.FullRowsFit
  constructor
  · rintro ⟨-, row, hrow, c, hc, hlt⟩ hfit
    obtain ⟨i, hi, rfl⟩ := List.mem_map.1 hrow
    rw [List.mem_range, hcount] at hi
    exact Int.not_lt.2 (hfit i hi c hc).2 hlt
  · intro hfit
    by_contra hover
    refine hfit fun i hi c hc => ⟨?_, Int.not_lt.1 fun hlt => hover ?_⟩
    · have := Matrix.le_top (Matrix.mem_data_of_mem_slice hc)
      have : Int64.minValue.toInt ≤ 0 := by decide
      omega
    · rw [← hcount] at hi
      exact ⟨rfl, _, List.mem_map_of_mem (List.mem_range.2 hi), c, hc, hlt⟩

/-! ## Surplus cells -/

theorem Matrix.pairingSums_trimmed (m : Matrix) : m.trimmed.pairingSums = m.pairingSums := by
  have hsum : ∀ l, IsPairing m.rows m.cols l → m.trimmed.pairSum l = m.pairSum l := fun l hl =>
    congrArg List.sum (List.map_congr_left fun q hq =>
      entry_trimmed (hl.inside q hq).1 (hl.inside q hq).2)
  ext x
  constructor
  · rintro ⟨l, hl, rfl⟩
    exact ⟨l, hl, (hsum l hl).symm⟩
  · rintro ⟨l, hl, rfl⟩
    exact ⟨l, hl, hsum l hl⟩

theorem overruns_iff_of_complete (hm : m.Complete) (hr : m.rows ≠ 0) (hc : m.cols ≠ 0) :
    Objective.maximizeUtility.Overruns m ↔ Int64.maxValue.toInt < m.top - m.trimmed.bottom := by
  have hw := hm.wellFormed_trimmed
  have hne : m.trimmed.data.toList ≠ [] := by
    have hpos : 0 < m.trimmed.data.size := by
      rw [hw]
      exact Nat.mul_pos (Nat.pos_of_ne_zero hr) (Nat.pos_of_ne_zero hc)
    rwa [← Array.length_toList, List.length_pos_iff] at hpos
  rw [Matrix.lt_sub_bottom_iff hne]
  unfold Objective.Overruns
  rw [and_iff_right rfl]
  constructor
  · rintro ⟨row, hrow, c, hc, hlt⟩
    rw [← hm.fullRows_trimmed] at hrow
    exact ⟨c, hw.mem_data_iff.2 ⟨row, hrow, hc⟩, hlt⟩
  · rintro ⟨c, hc, hlt⟩
    obtain ⟨row, hrow, hmem⟩ := hw.mem_data_iff.1 hc
    rw [hm.fullRows_trimmed] at hrow
    exact ⟨row, hrow, c, hmem, hlt⟩

/-- Where no cell is missing and no cost is too large, there is a best sum, and the total is this sum
unless it fits into no cell. -/
theorem solve_of_complete (he : m.isEmpty = false) (h : ¬ o.Overruns m) (hm : m.Complete) :
    ∃ x, o.IsBest m.pairingSums x ∧
      (((solve m o).run.value = .error (.error (.overflow Activity.summing)) ∧ Cell.ofInt? x = none) ∨
        ∃ s, (solve m o).run.value = .ok s ∧ s.total.toInt = x) := by
  obtain ⟨p, hp, hstands⟩ := Padded.ofMatrix_of_complete hm he h
  obtain ⟨hw, hrows, hcols⟩ := Padded.ofMatrix_shape hp
  have hs := hrows.trans hcols.symm
  obtain ⟨σ, -, hbest, hvalue⟩ := hstands.assemble_optimum hm
    (SquareSolution.ofOptimum p.matrix (optimum p.matrix.costs)).reduced
  rw [← solve_value_eq_assemble hp hs hw.complete] at hvalue
  refine ⟨_, hbest, ?_⟩
  cases ht : Cell.ofInt? (m.pairSum (insidePairs m.rows m.cols σ)) with
  | none =>
    rw [ht] at hvalue
    exact .inl ⟨hvalue, rfl⟩
  | some total =>
    rw [ht] at hvalue
    exact .inr ⟨_, hvalue, Cell.ofInt?_eq_some_iff.1 ht⟩

/-! ## Any storage -/

theorem solve_of_empty (h : m.rows = 0 ∨ m.cols = 0) :
    (solve m o).run.value = .error (.error (.emptyMatrix m.rows m.cols)) := by
  rw [solve_value, Padded.ofMatrix_empty (Matrix.isEmpty_iff.2 h)]
  rfl

/-- A fault needs a missing cell, and costs before it that fit into cells. -/
theorem solve_fault_iff (he : m.isEmpty = false) :
    (∃ f, (solve m o).run.value = .error (.fault f)) ↔ ¬ m.Complete ∧ ¬ o.Overruns m := by
  by_cases h : o.Overruns m
  · rw [solve_of_overruns he h]
    simp [h]
  · by_cases hm : m.Complete
    · obtain ⟨x, -, ⟨hvalue, -⟩ | ⟨s, hvalue, -⟩⟩ := solve_of_complete he h hm
      · rw [hvalue]
        simp [hm]
      · rw [hvalue]
        simp [hm]
    · exact iff_of_true ⟨_, solve_of_missing he h hm⟩ ⟨hm, h⟩

theorem solve_transforming_iff (he : m.isEmpty = false) (hm : m.Complete) :
    (solve m o).run.value = .error (.error (.overflow Activity.transforming)) ↔ o.Overruns m := by
  refine ⟨fun hvalue => ?_, solve_of_overruns he⟩
  by_contra h
  have hne : Activity.summing ≠ Activity.transforming := by decide
  obtain ⟨x, -, ⟨hsumming, -⟩ | ⟨s, hok, -⟩⟩ := solve_of_complete he h hm
  · rw [hvalue, Except.error.injEq, Failure.error.injEq, Error.overflow.injEq] at hsumming
    exact hne hsumming.symm
  · rw [hvalue] at hok
    cases hok

/-- Solved problems have cells, and costs that fit into cells. -/
theorem isBest_of_solve_ok (hm : m.Complete) {s : Solution} (hs : (solve m o).run.value = .ok s) :
    o.IsBest m.pairingSums s.total.toInt := by
  have he : m.isEmpty = false := by
    by_contra he
    rw [solve_of_empty (Matrix.isEmpty_iff.1 ((Bool.not_eq_false _).mp he))] at hs
    cases hs
  have hfit : ¬ o.Overruns m := fun h => by
    rw [solve_of_overruns he h] at hs
    cases hs
  obtain ⟨x, hx, ⟨hsumming, -⟩ | ⟨s', hok, htotal⟩⟩ := solve_of_complete he hfit hm
  · rw [hs] at hsumming
    cases hsumming
  · rw [hs] at hok
    cases hok
    rwa [htotal]

/-- How a matrix is solved that stores as many cells as it happens to. -/
structure Matrix.SolvedAsStored (m : Matrix) : Prop where
  square_in_place : Indexed.solveSquare m = m.solveSquare.run.value.toOption
  square_fault_iff : (∃ f, m.solveSquare.run.value = .error f) ↔
    m.rows ≠ m.cols ∨ m.data.size < m.rows * m.cols
  in_place : ∀ o, Indexed.solve m o = (solve m o).run.value
  empty : m.rows = 0 ∨ m.cols = 0 → ∀ o,
    (solve m o).run.value = .error (.error (.emptyMatrix m.rows m.cols))
  minimize_fault_iff : m.rows ≠ 0 → m.cols ≠ 0 →
    ((∃ f, (solve m .minimizeCost).run.value = .error (.fault f)) ↔ m.data.size < m.rows * m.cols)
  maximize_fault_iff : m.rows ≠ 0 → m.cols ≠ 0 →
    ((∃ f, (solve m .maximizeUtility).run.value = .error (.fault f)) ↔
      m.data.size < m.rows * m.cols ∧ m.FullRowsFit)
  maximize_overflow : m.rows ≠ 0 → m.cols ≠ 0 → m.data.size < m.rows * m.cols → ¬ m.FullRowsFit →
    (solve m .maximizeUtility).run.value = .error (.error (.overflow Activity.transforming))
  no_fault : m.rows * m.cols ≤ m.data.size → ∀ o f, (solve m o).run.value ≠ .error (.fault f)
  overflow_iff : m.rows ≠ 0 → m.cols ≠ 0 → m.rows * m.cols ≤ m.data.size →
    ((solve m .maximizeUtility).run.value = .error (.error (.overflow Activity.transforming)) ↔
      Int64.maxValue.toInt < m.top - m.trimmed.bottom)
  best : m.rows * m.cols ≤ m.data.size → ∀ o s, (solve m o).run.value = .ok s →
    o.IsBest m.trimmed.pairingSums s.total.toInt

/-- Storage decides about faults, all stored cells about overflow, and the cells of the shape about the
total. -/
theorem Matrix.solvedAsStored_of_any (m : Matrix) : m.SolvedAsStored := by
  have hmin : ¬ Objective.minimizeCost.Overruns m := fun h => by cases h.1
  constructor
  · exact Indexed.solveSquare_eq m
  · exact solveSquare_fault_iff m
  · exact Indexed.solve_eq m
  · exact fun h o => solve_of_empty h
  · intro hr hc
    rw [solve_fault_iff (isEmpty_eq_false hr hc), and_iff_left hmin]
    exact Nat.not_le
  · intro hr hc
    have hover : ∀ h : ¬ m.Complete, ¬ Objective.maximizeUtility.Overruns m ↔ m.FullRowsFit :=
      fun h => by rw [overruns_iff_of_missing h, not_not]
    rw [solve_fault_iff (isEmpty_eq_false hr hc), and_congr_right hover]
    exact and_congr_left' Nat.not_le
  · intro hr hc hm hfit
    exact solve_of_overruns (isEmpty_eq_false hr hc)
      ((overruns_iff_of_missing (Nat.not_le.2 hm)).2 hfit)
  · intro hm o f hvalue
    by_cases he : m.isEmpty = true
    · rw [solve_of_empty (Matrix.isEmpty_iff.1 he)] at hvalue
      cases hvalue
    · exact ((solve_fault_iff (Bool.eq_false_iff.2 he)).1 ⟨f, hvalue⟩).1 hm
  · intro hr hc hm
    rw [solve_transforming_iff (isEmpty_eq_false hr hc) hm]
    exact overruns_iff_of_complete hm hr hc
  · intro hm o s hvalue
    rw [pairingSums_trimmed]
    exact isBest_of_solve_ok hm hvalue

-- the third row is missing, but the cost of the first is too large
example : (solve ⟨3, 1, #[Int64.minValue, 0]⟩ .maximizeUtility).run.value =
    .error (.error (.overflow Activity.transforming)) := by decide

-- 9 is nobody's utility
example : (solve ⟨1, 2, #[4, 7, 9]⟩ .maximizeUtility).run.value.map Solution.total = .ok 7 := by decide

end LinearAssignment
