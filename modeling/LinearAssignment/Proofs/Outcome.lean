/-
What solving comes to. A problem is solvable if it has cells, its utilities are not spread too wide, and
the best sum of a pairing fits into a cell. Exactly the solvable problems have a solution, and the
parts of a solution all go back to one permutation of the padded problem.
-/
import LinearAssignment.Proofs.Solve

namespace LinearAssignment

variable {m : Matrix} {o : Objective}

/-- What a problem needs to have a solution. -/
structure Matrix.Solvable (m : Matrix) (o : Objective) : Prop where
  nonempty : min m.rows m.cols ≠ 0
  narrow : ¬ o.Overflows m
  fits : ∃ x, o.IsBest m.pairingSums x ∧ Int64.minValue.toInt ≤ x ∧ x ≤ Int64.maxValue.toInt

/-- The solution `s` of `m` records the permutation `σ`, which the optimum of the padded problem `p`
is. -/
structure Solution.Records (s : Solution) (m : Matrix) (o : Objective) (p : Padded)
    (σ : Equiv.Perm (Fin p.matrix.rows)) : Prop where
  stands : p.StandsFor m o
  colOf : ∀ i, (optimum p.matrix.costs).matching.colOf.get i = some (σ i)
  success : s.success = true
  total : s.total.toInt = m.pairSum (insidePairs m.rows m.cols σ)
  best : o.IsBest m.pairingSums s.total.toInt
  assignment : s.assignment = (optimum p.matrix.costs).assignment
  pairs : s.pairs = insidePairs m.rows m.cols σ
  reduced : s.reduced = (SquareSolution.ofOptimum p.matrix (optimum p.matrix.costs)).reduced
  square : s.square = p.matrix
  rows : s.rows = m.rows
  cols : s.cols = m.cols

/-- A problem that has been padded to `p` ends with a solution that records the optimum of `p`, unless the
best sum has no cell. -/
theorem Padded.StandsFor.outcome {p : Padded} (h : p.StandsFor m o) (hm : m.WellFormed)
    (hp : Padded.ofMatrix m o = .ok p) : ∃ σ : Equiv.Perm (Fin p.matrix.rows),
      o.IsBest m.pairingSums (m.pairSum (insidePairs m.rows m.cols σ)) ∧
        ((Cell.ofInt? (m.pairSum (insidePairs m.rows m.cols σ)) = none ∧
            (solve m o).run.value = .error (.error (.overflow Activity.summing))) ∨
          ∃ s, (solve m o).run.value = .ok s ∧ s.Records m o p σ) := by
  have hsquare : p.matrix.rows = p.matrix.cols := h.matrix_rows.trans h.matrix_cols.symm
  have hvalue := solve_value_eq_assemble hp hsquare h.wellFormed.complete
  obtain ⟨σ, hσ, hbest, heq⟩ := h.assemble_optimum hm.complete
    (SquareSolution.ofOptimum p.matrix (optimum p.matrix.costs)).reduced
  rw [heq] at hvalue
  refine ⟨σ, hbest, ?_⟩
  cases ht : Cell.ofInt? (m.pairSum (insidePairs m.rows m.cols σ)) with
  | none =>
    rw [ht] at hvalue
    exact .inl ⟨rfl, hvalue⟩
  | some total =>
    rw [ht] at hvalue
    have htotal := Cell.ofInt?_eq_some_iff.1 ht
    rw [← htotal] at hbest
    exact .inr ⟨_, hvalue, h, hσ, rfl, htotal, hbest, rfl, rfl, rfl, rfl, rfl, rfl⟩

theorem Padded.StandsFor.records {p : Padded} (h : p.StandsFor m o) (hm : m.WellFormed)
    (hp : Padded.ofMatrix m o = .ok p) {s : Solution} (hs : (solve m o).run.value = .ok s) :
    ∃ σ, s.Records m o p σ := by
  obtain ⟨σ, -, ⟨-, hvalue⟩ | ⟨s', hvalue, hrec⟩⟩ := h.outcome hm hp
  · rw [hs] at hvalue
    cases hvalue
  · rw [hs] at hvalue
    cases hvalue
    exact ⟨σ, hrec⟩

/-- Solving never meets a fault. It ends with an error if the problem is not solvable, and otherwise with
a solution that records an optimum. -/
theorem solve_outcome (m : Matrix) (o : Objective) (hm : m.WellFormed) :
    (¬ m.Solvable o ∧ ∃ e, (solve m o).run.value = .error (.error e)) ∨
      (m.Solvable o ∧ ∃ s p σ, (solve m o).run.value = .ok s ∧ s.Records m o p σ) := by
  rcases Padded.ofMatrix_outcome o hm with ⟨he, h⟩ | ⟨he, hw, h⟩ | ⟨he, hw, p, hp, hstands⟩
  · refine .inl ⟨fun hs => hs.nonempty he, .emptyMatrix m.rows m.cols, ?_⟩
    rw [solve_value, h]
    rfl
  · refine .inl ⟨fun hs => hs.narrow hw, .overflow Activity.transforming, ?_⟩
    rw [solve_value, h]
    rfl
  · obtain ⟨σ, hbest, ⟨hnone, hvalue⟩ | ⟨s, hvalue, hrec⟩⟩ := hstands.outcome hm hp
    · -- another best sum would be the same number, and that has no cell
      refine .inl ⟨fun h => ?_, _, hvalue⟩
      obtain ⟨x, hx, hin⟩ := h.fits
      rw [hx.unique hbest] at hin
      exact Cell.ofInt?_eq_none_iff.1 hnone hin
    · exact .inr ⟨⟨he, hw, _, hrec.best, Int64.minValue_le_toInt _, Int64.toInt_le _⟩, s, p, σ, hvalue,
        hrec⟩

theorem exists_records_of_solve_ok (hm : m.WellFormed) {s : Solution}
    (hs : (solve m o).run.value = .ok s) : ∃ p σ, s.Records m o p σ := by
  rcases solve_outcome m o hm with ⟨-, e, he⟩ | ⟨-, s', p, σ, hs', hrec⟩
  · rw [hs] at he
    cases he
  · rw [hs] at hs'
    cases hs'
    exact ⟨p, σ, hrec⟩

end LinearAssignment
