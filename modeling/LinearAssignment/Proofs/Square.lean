/-
What solving a square matrix leaves behind. The assignment is a matrix of zeros and ones with one 1
in every row and every column, and no permutation has a smaller sum of cells. The other matrix is
the certificate for this: its entries are reduced costs, capped at the greatest cell, none of them
negative and those at the assigned positions zero.
-/
import LinearAssignment.Square
import LinearAssignment.Proofs.Matrix
import LinearAssignment.Proofs.Optimum
import Mathlib.Algebra.BigOperators.Fin

namespace LinearAssignment

variable {n : Nat}

/-! ## Assignments as matrices -/

/-- An `n` by `n` matrix of zeros and ones with exactly one 1 in each row and in each column. -/
structure Matrix.IsAssignment (a : Matrix) (n : Nat) : Prop where
  wellFormed : a.WellFormed
  rows : a.rows = n
  cols : a.cols = n
  zero_or_one : ∀ i j : Fin n, a.entry i j = 0 ∨ a.entry i j = 1
  row : ∀ i : Fin n, ∃! j : Fin n, a.entry i j = 1
  col : ∀ j : Fin n, ∃! i : Fin n, a.entry i j = 1

/-- The sum of the entries of an `n` by `n` matrix `m` at the positions where `a` has 1. -/
def Matrix.assignedTotal (n : Nat) (m a : Matrix) : Int :=
  ∑ i : Fin n, ∑ j : Fin n, if a.entry i j = 1 then m.entry i j else 0

namespace Optimum

variable {o : Optimum n} {σ : Equiv.Perm (Fin n)}

theorem entry_assignment (hσ : ∀ i, o.matching.colOf.get i = some (σ i)) (i j : Fin n) :
    o.assignment.entry i j = if σ i = j then 1 else 0 := by
  unfold assignment
  rw [Matrix.entry_ofFn, hσ]
  by_cases h : σ i = j
  · rw [if_pos h, if_pos (congrArg some h)]; rfl
  · rw [if_neg h, if_neg fun e => h (Option.some.inj e)]; rfl

theorem entry_assignment_eq_one (hσ : ∀ i, o.matching.colOf.get i = some (σ i)) (i j : Fin n) :
    o.assignment.entry i j = 1 ↔ σ i = j := by
  rw [entry_assignment hσ]
  by_cases h : σ i = j <;> simp [h]

theorem assignment_isAssignment (hσ : ∀ i, o.matching.colOf.get i = some (σ i)) :
    o.assignment.IsAssignment n := by
  refine ⟨Matrix.wellFormed_ofFn _, rfl, rfl, fun i j => ?_, fun i => ?_, fun j => ?_⟩
  · rw [entry_assignment hσ]
    by_cases h : σ i = j <;> simp [h]
  · simp only [entry_assignment_eq_one hσ]
    exact ⟨σ i, rfl, fun _ h => h.symm⟩
  · simp only [entry_assignment_eq_one hσ]
    exact ⟨σ.symm j, σ.apply_symm_apply j, fun _ h => h ▸ (σ.symm_apply_apply _).symm⟩

theorem assignedTotal_assignment (hσ : ∀ i, o.matching.colOf.get i = some (σ i)) (m : Matrix) :
    m.assignedTotal n o.assignment = ∑ i : Fin n, m.entry i (σ i) := by
  unfold Matrix.assignedTotal
  refine Finset.sum_congr rfl fun i _ => ?_
  simp only [entry_assignment_eq_one hσ]
  rw [Finset.sum_ite_eq, if_pos (Finset.mem_univ _)]

end Optimum

/-! ## The run -/

theorem Matrix.solveSquare_run {m : Matrix} (hs : m.rows = m.cols) (hc : m.Complete) :
    m.solveSquare.run =
      ⟨.ok (.ofOptimum m (optimum m.costs)), SquareSolution.report m (optimum m.costs)⟩ := by
  have hq : m.isSquare = true := beq_iff_eq.2 hs
  unfold solveSquare
  rw [if_pos hq, if_pos hc]
  simp only [Logged.run_bind, Logged.run_report]
  show Logged.mk _ (_ ++ []) = _
  rw [List.append_nil]
  rfl

theorem Matrix.solveSquare_of_not_square {m : Matrix} (hs : m.rows ≠ m.cols) :
    m.solveSquare.run.value = .error (.notSquare m.rows m.cols) := by
  have hq : ¬ m.isSquare = true := fun h => hs (beq_iff_eq.1 h)
  unfold solveSquare
  rw [if_neg hq]
  rfl

theorem Matrix.solveSquare_of_not_complete {m : Matrix} (hs : m.rows = m.cols) (hc : ¬ m.Complete) :
    m.solveSquare.run.value = .error .missingCells := by
  have hq : m.isSquare = true := beq_iff_eq.2 hs
  unfold solveSquare
  rw [if_pos hq, if_neg hc]
  rfl

/-- The solution of a square matrix is an assignment, and no permutation has a smaller sum of
cells. -/
theorem Matrix.solveSquare_optimal (m : Matrix) (hw : m.WellFormed) (hs : m.rows = m.cols) :
    ∃ s, m.solveSquare.run.value = .ok s ∧ s.assignment.IsAssignment m.rows ∧
      ∀ σ : Equiv.Perm (Fin m.rows),
        m.assignedTotal m.rows s.assignment ≤ ∑ i : Fin m.rows, m.entry i (σ i) := by
  obtain ⟨σ, hσ, htight⟩ := exists_perm_optimum m.costs
  refine ⟨_, by rw [solveSquare_run hs hw.complete], Optimum.assignment_isAssignment hσ, fun τ => ?_⟩
  show m.assignedTotal m.rows (optimum m.costs).assignment ≤ _
  rw [Optimum.assignedTotal_assignment hσ]
  exact Potentials.sum_le_of_tight (optimum_feasible m.costs) htight τ

/-- Cells of both extremes: the reduced costs off the diagonal fit into no cell. -/
def extremes : Matrix :=
  ⟨2, 2, #[Int64.minValue, Int64.maxValue, Int64.maxValue, Int64.minValue]⟩

theorem Matrix.solveSquare_optimal_extremes : extremes.WellFormed ∧ extremes.rows = extremes.cols ∧
    ∃ s, extremes.solveSquare.run.value = .ok s ∧ s.assignment.IsAssignment extremes.rows ∧
      ∀ σ : Equiv.Perm (Fin extremes.rows),
        extremes.assignedTotal extremes.rows s.assignment ≤
          ∑ i : Fin extremes.rows, extremes.entry i (σ i) :=
  ⟨by decide, rfl, solveSquare_optimal extremes (by decide) rfl⟩

/-! ## The certificate -/

/-- The number of values of `r` that no cell can hold. -/
def beyondCells (r : Fin n → Fin n → Int) : Nat :=
  (Finset.univ.filter fun p : Fin n × Fin n => Int64.maxValue.toInt < r p.1 p.2).card

theorem countP_finRange (q : Fin n → Bool) :
    (List.finRange n).countP q = ∑ j, if q j = true then 1 else 0 := by
  rw [← Finset.card_filter, List.countP_eq_length_filter,
    ← List.toFinset_card_of_nodup ((List.nodup_finRange n).filter _)]
  congr 1
  ext j
  simp

theorem foldl_add_eq_sum {α : Type} (f : α → Nat) (l : List α) :
    l.foldl (fun count x => count + f x) 0 = (l.map f).sum := by
  rw [List.sum_eq_foldl, List.foldl_map]

theorem cappedCount_eq {o : Optimum n} {c : Costs n} (h : o.potentials.Feasible c) :
    o.cappedCount c = beyondCells (o.potentials.reduced c) := by
  unfold Optimum.cappedCount beyondCells
  rw [Finset.card_filter, Fintype.sum_prod_type, foldl_add_eq_sum, ← Fin.sum_univ_def]
  refine Finset.sum_congr rfl fun i _ => ?_
  rw [countP_finRange]
  refine Finset.sum_congr rfl fun j _ => ?_
  simp only [Option.isNone_iff_eq_none, Cell.ofInt?_eq_none_iff_of_nonneg (h i j)]

theorem exists_warn_iff {log : List Log.Record} :
    (∃ w ∈ log, w.level = .warn) ↔ Log.upTo .warn log ≠ [] := by
  have hrank : ∀ l : Log.Level, l.rank ≤ Log.Level.warn.rank ↔ l = .warn := by
    intro l
    cases l <;> decide
  simp [Log.upTo, List.filter_eq_nil_iff, hrank]

/-- The records of a level. -/
def Log.ofLevel (level : Log.Level) (records : List Log.Record) : List Log.Record :=
  records.filter fun r => r.level = level

theorem beyondCells_ne_zero {r : Fin n → Fin n → Int} :
    beyondCells r ≠ 0 ↔ ∃ i j, Int64.maxValue.toInt < r i j := by
  rw [beyondCells, ← Nat.pos_iff_ne_zero, Finset.card_pos]
  constructor
  · rintro ⟨p, hp⟩
    exact ⟨p.1, p.2, (Finset.mem_filter.1 hp).2⟩
  · rintro ⟨i, j, hij⟩
    exact ⟨(i, j), Finset.mem_filter.2 ⟨Finset.mem_univ _, hij⟩⟩

namespace SquareSolution

variable {m : Matrix} {o : Optimum m.rows}

theorem reduced_ofOptimum (hw : m.WellFormed) (hs : m.rows = m.cols) :
    (ofOptimum m o).reduced = o.reduced m.costs := by
  -- there are no surplus cells to keep
  have he : m.data.extract (m.rows * m.rows) m.data.size = #[] := by
    rw [hw, ← hs, Array.extract_eq_empty_of_le (Nat.min_le_left _ _)]
  unfold ofOptimum
  simp only [he, Array.append_empty]

theorem upTo_warn_report :
    Log.upTo .warn (report m o) =
      if o.cappedCount m.costs = 0 then []
      else [⟨.warn, s!"{o.cappedCount m.costs} reduced costs exceed i64::MAX and were reported as i64::MAX"⟩] := by
  unfold report Log.upTo
  by_cases hn : m.rows = 0
  · -- no report, but no row either
    have hrange : List.finRange m.rows = [] := by
      rw [← List.length_eq_zero_iff, List.length_finRange, hn]
    have h0 : o.cappedCount m.costs = 0 := by
      unfold Optimum.cappedCount
      rw [hrange, List.foldl_nil]
    simp only [hn, h0, if_true, List.filter_nil]
  · simp only [hn, if_false]
    by_cases h0 : o.cappedCount m.costs = 0 <;> simp [h0, Log.Level.rank]

/-- The two records with the counts of a run. -/
theorem ofLevel_debug_report :
    Log.ofLevel .debug (report m o) =
      if m.rows = 0 then []
      else
        [⟨.debug, s!"solving {m.rows}x{m.rows}: {o.matchedFirst} rows matched by reduction"⟩,
          ⟨.debug, s!"solved {m.rows}x{m.rows}: {o.augmentations} augmentations, {o.adjustments} adjustments"⟩] := by
  unfold report Log.ofLevel
  by_cases hn : m.rows = 0
  · simp only [hn, if_true, List.filter_nil]
  · by_cases h0 : o.cappedCount m.costs = 0 <;> simp [hn, h0]

end SquareSolution

/-- The solution `s` of the square matrix `m` is certified by the reduced costs `r`, and `log` is a
true report of it. -/
structure SquareSolution.Certified (m : Matrix) (s : SquareSolution) (log : List Log.Record)
    (r : Fin m.rows → Fin m.rows → Int) : Prop where
  assigned : s.assignment.IsAssignment m.rows
  potentials : ∃ u v : Fin m.rows → Int, ∀ i j, r i j = m.entry i j - u i - v j
  nonneg : ∀ i j, 0 ≤ r i j
  tight : ∀ i j : Fin m.rows, s.assignment.entry i j = 1 → r i j = 0
  shape : s.reduced.WellFormed ∧ s.reduced.rows = m.rows ∧ s.reduced.cols = m.rows
  cells : ∀ i j : Fin m.rows, s.reduced.entry i j = min (r i j) Int64.maxValue.toInt
  warns : (∃ w ∈ log, w.level = .warn) ↔ ∃ i j, Int64.maxValue.toInt < r i j
  warning : Log.upTo .warn log = if beyondCells r = 0 then []
    else [⟨.warn, s!"{beyondCells r} reduced costs exceed i64::MAX and were reported as i64::MAX"⟩]
  /-- Along a permutation the reduced costs are what its cells sum to beyond the assigned ones. -/
  excess : ∀ σ : Equiv.Perm (Fin m.rows),
    ∑ i : Fin m.rows, m.entry i (σ i) - m.assignedTotal m.rows s.assignment = ∑ i, r i (σ i)

/-- Solving a square matrix leaves a certificate: reduced costs of the matrix, none negative and zero
where the assignment has 1, written as cells up to the greatest one; there is a warning exactly when
some of them are greater, and it counts them. -/
theorem Matrix.solveSquare_certificate (m : Matrix) (hw : m.WellFormed) (hs : m.rows = m.cols) :
    ∃ s log, m.solveSquare.run = ⟨.ok s, log⟩ ∧ ∃ r, SquareSolution.Certified m s log r := by
  obtain ⟨σ, hσ, htight⟩ := exists_perm_optimum m.costs
  have hf := optimum_feasible m.costs
  have hred := SquareSolution.reduced_ofOptimum (o := optimum m.costs) hw hs
  have hlog := SquareSolution.upTo_warn_report (m := m) (o := optimum m.costs)
  rw [cappedCount_eq hf] at hlog
  refine ⟨_, _, solveSquare_run hs hw.complete, (optimum m.costs).potentials.reduced m.costs, ?_⟩
  refine ⟨Optimum.assignment_isAssignment hσ,
    ⟨fun i => ((optimum m.costs).potentials.row.get i), fun j => ((optimum m.costs).potentials.col.get j),
      fun i j => rfl⟩, hf, fun i j hij => ?_, ?_, fun i j => ?_, ?_, hlog, fun τ => ?_⟩
  · have hj := (Optimum.entry_assignment_eq_one hσ i j).1 hij
    exact hj ▸ htight i
  · rw [hred]
    exact ⟨wellFormed_ofFn _, rfl, rfl⟩
  · -- the conversion never meets a number below the cells, as none is negative
    rw [hred]
    unfold Optimum.reduced
    rw [entry_ofFn, Cell.toInt_capped (hf i j)]
  · rw [exists_warn_iff, hlog, ← beyondCells_ne_zero]
    split
    · next h => simp [h]
    · next h => simp [h]
  · show _ - m.assignedTotal m.rows (optimum m.costs).assignment = _
    rw [Optimum.assignedTotal_assignment hσ]
    exact Potentials.excess_eq htight τ

theorem Matrix.solveSquare_certificate_extremes :
    extremes.WellFormed ∧ extremes.rows = extremes.cols ∧
      ∃ s log, extremes.solveSquare.run = ⟨.ok s, log⟩ ∧
        ∃ r, SquareSolution.Certified extremes s log r :=
  ⟨by decide, rfl, solveSquare_certificate extremes (by decide) rfl⟩

end LinearAssignment
