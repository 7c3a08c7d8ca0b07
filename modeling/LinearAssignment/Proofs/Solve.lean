/-
The answer to a problem of any shape. The solved square is a permutation of least cost; its part
inside the shape is a pairing, and since positions outside the shape cost nothing and every pairing
is part of a permutation, no pairing costs less. Least cost is least total for costs and greatest
total for utilities, as all pairings have equally many positions.
-/
import LinearAssignment.Proofs.Assembly
import LinearAssignment.Proofs.Square
import LinearAssignment.Solve
import Mathlib.Order.Bounds.Basic

namespace LinearAssignment

/-- The sums of entries along pairings. -/
def Matrix.pairingSums (m : Matrix) : Set Int :=
  { x | ∃ l, IsPairing m.rows m.cols l ∧ m.pairSum l = x }

/-- `x` is what the objective asks for among the numbers of a set. -/
def Objective.IsBest (o : Objective) (s : Set Int) (x : Int) : Prop :=
  match o with
  | minimizeCost => IsLeast s x
  | maximizeUtility => IsGreatest s x

/-! ## Least cost -/

variable {m : Matrix} {o : Objective}

theorem isBest_of_costSum_le {l : List (Nat × Nat)} (hl : IsPairing m.rows m.cols l)
    (hle : ∀ l', IsPairing m.rows m.cols l' → Padded.costSum m o l ≤ Padded.costSum m o l') :
    o.IsBest m.pairingSums (m.pairSum l) := by
  cases o with
  | minimizeCost =>
    refine ⟨⟨l, hl, rfl⟩, ?_⟩
    rintro x ⟨l', hl', rfl⟩
    have h := hle l' hl'
    rw [Padded.costSum_minimize, Padded.costSum_minimize] at h
    exact h
  | maximizeUtility =>
    refine ⟨⟨l, hl, rfl⟩, ?_⟩
    rintro x ⟨l', hl', rfl⟩
    -- all pairings have the same length, so the costs turn the order around and do nothing else
    have h := hle l' hl'
    rw [Padded.costSum_maximize, Padded.costSum_maximize, hl.length_eq, hl'.length_eq] at h
    omega

namespace Padded

variable {p : Padded}

/-- The part inside the shape of a permutation of least cost is a pairing of least cost. -/
theorem StandsFor.costSum_le (h : p.StandsFor m o) {σ : Equiv.Perm (Fin p.matrix.rows)}
    (hσ : ∀ τ : Equiv.Perm (Fin p.matrix.rows),
      ∑ i : Fin p.matrix.rows, p.matrix.entry i (σ i) ≤ ∑ i : Fin p.matrix.rows, p.matrix.entry i (τ i))
    {l : List (Nat × Nat)} (hl : IsPairing m.rows m.cols l) :
    costSum m o (insidePairs m.rows m.cols σ) ≤ costSum m o l := by
  obtain ⟨τ, hτ⟩ := hl.perm_insidePairs h.matrix_rows
  have hsum : costSum m o l = costSum m o (insidePairs m.rows m.cols τ) := (hτ.map _).sum_eq
  rw [hsum, ← h.sum_entry σ, ← h.sum_entry τ]
  exact hσ τ

theorem pairs_assignment {x : Optimum p.matrix.rows} {σ : Equiv.Perm (Fin p.matrix.rows)}
    (hσ : ∀ i, x.matching.colOf.get i = some (σ i)) :
    p.pairs x.assignment = insidePairs p.rows p.cols σ := by
  -- the first 1 of row `i` is in column `σ i`, as it is the only one
  have hpair : ∀ i : Fin p.matrix.rows, p.pair? x.assignment i =
      if i.val < p.rows ∧ (σ i).val < p.cols then some (i.val, (σ i).val) else none := by
    intro i
    have ha := Optimum.assignment_isAssignment hσ
    have hone := (Optimum.entry_assignment_eq_one hσ i (σ i)).2 rfl
    have hidx : (x.assignment.slice i).idxOf? 1 = some (σ i).val := by
      refine ha.wellFormed.idxOf?_slice i.isLt (σ i).isLt hone fun k hk h1 => ?_
      have hj := (Optimum.entry_assignment_eq_one hσ i ⟨k, by omega⟩).1 h1
      exact absurd (congrArg Fin.val hj) (by simp only; omega)
    unfold pair?
    rw [hidx, Option.bind_some]
    simp [isReal]
  unfold pairs insidePairs
  show (List.range p.matrix.rows).filterMap _ = _
  rw [← List.map_coe_finRange_eq_range, List.filterMap_map, ← List.filterMap_eq_filter, List.map_filterMap]
  refine List.filterMap_congr fun i _ => ?_
  rw [Function.comp_apply, hpair]
  simp [Option.guard_apply]

end Padded

/-! ## The answer -/

/-- What a solution of `m` has to be: its pairs are a pairing with the best sum, its total. -/
structure Solution.Optimal (s : Solution) (m : Matrix) (o : Objective) : Prop where
  success : s.success = true
  pairing : IsPairing m.rows m.cols s.pairs
  sum : m.pairSum s.pairs = s.total.toInt
  best : o.IsBest m.pairingSums s.total.toInt

/-- The right answers to the problem `m`. The cases exclude each other, so an error is right only
under its condition, and a fault never is. -/
inductive RightAnswer (m : Matrix) (o : Objective) : Except Failure Solution → Prop where
  | empty (he : min m.rows m.cols = 0) :
      RightAnswer m o (.error (.error (.emptyMatrix m.rows m.cols)))
  | wide (he : min m.rows m.cols ≠ 0) (hw : o.Overflows m) :
      RightAnswer m o (.error (.error (.overflow Activity.transforming)))
  | beyond (he : min m.rows m.cols ≠ 0) (hw : ¬ o.Overflows m) {x : Int}
      (hx : o.IsBest m.pairingSums x)
      (hout : ¬ (Int64.minValue.toInt ≤ x ∧ x ≤ Int64.maxValue.toInt)) :
      RightAnswer m o (.error (.error (.overflow Activity.summing)))
  | solved (he : min m.rows m.cols ≠ 0) (hw : ¬ o.Overflows m) {s : Solution} (hs : s.Optimal m o) :
      RightAnswer m o (.ok s)

theorem Objective.IsBest.unique {s : Set Int} {x y : Int} (hx : o.IsBest s x) (hy : o.IsBest s y) :
    x = y := by
  cases o with
  | minimizeCost => exact IsLeast.unique hx hy
  | maximizeUtility => exact IsGreatest.unique hx hy

/-- Right answers differ in the choice of a best pairing only. -/
theorem RightAnswer.agree {a b : Except Failure Solution} (ha : RightAnswer m o a)
    (hb : RightAnswer m o b) : a.map Solution.total = b.map Solution.total := by
  have hrange : ∀ {s : Solution} {x : Int}, s.Optimal m o → o.IsBest m.pairingSums x →
      Int64.minValue.toInt ≤ x ∧ x ≤ Int64.maxValue.toInt := by
    intro s x hs hx
    rw [hx.unique hs.best]
    exact ⟨Int64.minValue_le_toInt _, Int64.toInt_le _⟩
  cases ha with
  | empty he => cases hb <;> first | rfl | contradiction
  | wide he hw => cases hb <;> first | rfl | contradiction
  | beyond he hw hx hout =>
    cases hb with
    | empty he' => exact absurd he' he
    | wide _ hw' => exact absurd hw' hw
    | beyond => rfl
    | solved _ _ hs => exact absurd (hrange hs hx) hout
  | solved he hw hs =>
    cases hb with
    | empty he' => exact absurd he' he
    | wide _ hw' => exact absurd hw' hw
    | beyond _ _ hx hout => exact absurd (hrange hs hx) hout
    | solved _ _ hs' => exact congrArg Except.ok (Int64.toInt_inj.1 (hs.best.unique hs'.best))

theorem solve_value : (solve m o).run.value = (Padded.ofMatrix m o).bind fun p =>
    (p.matrix.solveSquare.run.value.mapError Failure.fault).bind fun s =>
      Solution.assemble m p s.assignment s.reduced o := by
  unfold solve
  simp only [Logged.run_bind, Logged.run_report, Logged.run_liftExcept, Logged.run_adapt]
  cases Padded.ofMatrix m o with
  | error e => rfl
  | ok p =>
    simp only [Except.bind]
    cases p.matrix.solveSquare.run.value.mapError Failure.fault <;> rfl

theorem solve_value_eq_assemble {p : Padded} (hp : Padded.ofMatrix m o = .ok p)
    (hs : p.matrix.rows = p.matrix.cols) (hc : p.matrix.Complete) :
    (solve m o).run.value = Solution.assemble m p (optimum p.matrix.costs).assignment
      (SquareSolution.ofOptimum p.matrix (optimum p.matrix.costs)).reduced o := by
  have hrun := Matrix.solveSquare_run hs hc
  rw [solve_value, hp]
  simp only [Except.bind, hrun, Except.mapError]
  rfl

theorem solve_value_of_square {p : Padded} (hp : Padded.ofMatrix m o = .ok p)
    (hs : p.matrix.rows = p.matrix.cols) (hc : p.matrix.Complete) :
    ∃ reduced, (solve m o).run.value =
      Solution.assemble m p (optimum p.matrix.costs).assignment reduced o :=
  ⟨_, solve_value_eq_assemble hp hs hc⟩

/-- From the optimum of a padded problem a best pairing is assembled, the part of a permutation inside
the shape, as long as its sum fits into a cell. -/
theorem Padded.StandsFor.assemble_optimum {p : Padded} (h : p.StandsFor m o) (hm : m.Complete)
    (reduced : Matrix) : ∃ σ : Equiv.Perm (Fin p.matrix.rows),
      (∀ i, (optimum p.matrix.costs).matching.colOf.get i = some (σ i)) ∧
      o.IsBest m.pairingSums (m.pairSum (insidePairs m.rows m.cols σ)) ∧
      Solution.assemble m p (optimum p.matrix.costs).assignment reduced o =
        match Cell.ofInt? (m.pairSum (insidePairs m.rows m.cols σ)) with
        | none => .error (.error (.overflow Activity.summing))
        | some total => .ok ⟨true, total, (optimum p.matrix.costs).assignment,
            insidePairs m.rows m.cols σ, reduced, p.matrix, m.rows, m.cols, o⟩ := by
  obtain ⟨σ, hσ, htight⟩ := exists_perm_optimum p.matrix.costs
  have hpairs : p.pairs (optimum p.matrix.costs).assignment = insidePairs m.rows m.cols σ := by
    rw [pairs_assignment hσ, h.rows, h.cols]
  have hl : IsPairing m.rows m.cols (insidePairs m.rows m.cols σ) :=
    insidePairs_isPairing h.matrix_rows σ
  have hvalue := Solution.assemble_eq hm (Optimum.assignment_isAssignment hσ).wellFormed
    (Nat.le_of_eq h.rows) (Nat.le_of_eq h.cols) reduced o
  rw [hpairs, h.rows, h.cols] at hvalue
  exact ⟨σ, hσ, isBest_of_costSum_le hl fun l hl => h.costSum_le
    (Potentials.sum_le_of_tight (optimum_feasible p.matrix.costs) htight) hl, hvalue⟩

theorem Padded.StandsFor.rightAnswer {p : Padded} (h : p.StandsFor m o) (hm : m.WellFormed)
    (he : min m.rows m.cols ≠ 0) (hw : ¬ o.Overflows m) (reduced : Matrix) :
    RightAnswer m o (Solution.assemble m p (optimum p.matrix.costs).assignment reduced o) := by
  obtain ⟨σ, -, hbest, heq⟩ := h.assemble_optimum hm.complete reduced
  rw [heq]
  cases ht : Cell.ofInt? (m.pairSum (insidePairs m.rows m.cols σ)) with
  | none => exact .beyond he hw hbest (Cell.ofInt?_eq_none_iff.1 ht)
  | some t =>
    have hl : IsPairing m.rows m.cols (insidePairs m.rows m.cols σ) :=
      insidePairs_isPairing h.matrix_rows σ
    rw [← Cell.ofInt?_eq_some_iff.1 ht] at hbest
    exact .solved he hw ⟨rfl, hl, (Cell.ofInt?_eq_some_iff.1 ht).symm, hbest⟩

/-- Solving gives the right answer to every problem. -/
theorem solve_rightAnswer (m : Matrix) (o : Objective) (hm : m.WellFormed) :
    RightAnswer m o (solve m o).run.value := by
  by_cases he : min m.rows m.cols = 0
  · rw [solve_value, Padded.ofMatrix_empty (Matrix.isEmpty_eq_true_iff.2 he)]
    exact .empty he
  have hne : m.isEmpty = false := Matrix.isEmpty_eq_false_iff.2 he
  by_cases hw : o.Overflows m
  · rw [solve_value, Padded.ofMatrix_overflow hm hne hw]
    exact .wide he hw
  obtain ⟨p, hp, hstands⟩ := Padded.ofMatrix_ok hm hne hw
  have hsquare : p.matrix.rows = p.matrix.cols := hstands.matrix_rows.trans hstands.matrix_cols.symm
  obtain ⟨reduced, hr⟩ := solve_value_of_square hp hsquare hstands.wellFormed.complete
  rw [hr]
  exact hstands.rightAnswer hm he hw reduced

/-- The sum over two rows fits into no cell, that over all three does. -/
def crossing : Matrix :=
  ⟨3, 4, Array.replicate 8 Int64.maxValue ++ Array.replicate 4 (-Int64.maxValue)⟩

theorem solve_rightAnswer_crossing : crossing.WellFormed ∧
    RightAnswer crossing .minimizeCost (solve crossing .minimizeCost).run.value :=
  ⟨by decide, solve_rightAnswer crossing .minimizeCost (by decide)⟩

end LinearAssignment
