/-
The whole way over numbered vectors: reduction, greedy matching, one search for every row that is still
free, the reduced costs written over the cells, and the assignment; and around it padding and assembly.
Whatever the matrix stores, the outcome is that of solving, and every failed access on the way is a cell
that its shape promises and its storage has not.
-/
import LinearAssignment.Proofs.Indexed.Fill
import LinearAssignment.Proofs.Indexed.Rewrite
import LinearAssignment.Proofs.Indexed.Tally
import LinearAssignment.Proofs.Solve

namespace LinearAssignment

namespace Indexed

/-- The rows of a list that have no column. -/
def freeRows (s : State) : List Nat → Option (List Nat)
  | [] => some []
  | i :: rows => do
    let j ← s.colOf[i]?
    let free ← freeRows s rows
    return if j.isNone then i :: free else free

/-- Matches the row `i` of a square matrix. A search has at most as many rounds as there are slots. -/
def augmentRow (m : Matrix) (s : State) (i : Nat) : Option State :=
  (augment m m.rows (m.rows + 1) s i).map Run.state

/-- Matches all rows of a square matrix. -/
def run (m : Matrix) : Option State := do
  let s ← matchZeros m (← reduce m)
  let free ← freeRows s (List.range m.rows)
  free.foldlM (augmentRow m) s

/-- Solves a square matrix in its place. -/
def solveSquare (m : Matrix) : Option SquareSolution :=
  if m.isSquare then
    if m.rows = 0 then some ⟨.zeros 0 0, m⟩
    else do
      let s ← run m
      let reduced ← rewrite s m
      let assignment ← assignment s m.rows
      return ⟨assignment, reduced⟩
  else none

/-- Solves one problem. -/
def solve (m : Matrix) (o : Objective) : Except Failure Solution := do
  let p ← pad m o
  match solveSquare p.matrix with
  | some s => assemble m p s.assignment s.reduced o
  | none => throw (.fault .missingCells)

/-! ## The run -/

section
variable {n : Nat}

theorem rewrite_of_no_rows {m : Matrix} (h : m.rows = 0) (s : State) : rewrite s m = some m := by
  unfold rewrite
  rw [h]
  rfl

theorem assignment_of_no_rows (h : n = 0) (s : State) : assignment s n = some (.zeros 0 0) := by
  subst h
  rfl

theorem freeRows_of (p : Potentials n) (b : Matching n) (l : List (Fin n)) :
    freeRows (State.of p b) (l.map Fin.val) =
      some ((l.filter fun i => (b.colOf.get i).isNone).map Fin.val) := by
  induction l with
  | nil => rfl
  | cons i l ih =>
    have hcol : (State.of p b).colOf[i.val]? = some ((b.colOf.get i).map Fin.val) := getElem?_cells _ i
    rw [List.map_cons, freeRows, hcol, ih, List.filter_cons]
    cases b.colOf.get i <;> rfl

end

section
variable {m : Matrix} (hm : m.Complete) (hs : m.rows = m.cols)
include hm hs

theorem foldlM_augmentRow {s : Progress m.rows} {todo : List (Fin m.rows)}
    (h : (Point.between s todo).Visited m.costs) :
    (todo.map Fin.val).foldlM (augmentRow m) (State.of s.potentials s.matching) =
      some (State.of (todo.foldl (Progress.augment m.costs) s).potentials
        (todo.foldl (Progress.augment m.costs) s).matching) := by
  induction todo generalizing s with
  | nil => rfl
  | cons root todo ih =>
    have hcard : s.matching.matchedCols.card ≤ m.rows := by
      simpa using Finset.card_le_univ s.matching.matchedCols
    obtain ⟨r, hr, hstate, -⟩ := exists_run_of_le hm hs h (Nat.succ_le_succ hcard)
    have hnext : (Point.between (s.augment m.costs root) todo).Visited m.costs :=
      h.trans (augment_steps h.sound)
    have hrow : augmentRow m (State.of s.potentials s.matching) root =
        some (State.of (s.augment m.costs root).potentials (s.augment m.costs root).matching) := by
      unfold augmentRow
      rw [hr, Option.map_some, hstate]
    rw [List.map_cons, List.foldlM_cons, hrow]
    exact ih hnext

/-- The run ends with the vectors of the optimum. -/
theorem run_of : run m = some (State.of (optimum m.costs).potentials (optimum m.costs).matching) := by
  have hfree := freeRows_of (Potentials.initial m.costs)
    (.greedy ((Potentials.initial m.costs).isTight m.costs)) (List.finRange m.rows)
  rw [← range_eq_map] at hfree
  have hvisited : (Point.first m.costs).Visited m.costs := .refl
  unfold run
  simp only [reduce_of hm hs, matchZeros_of hm hs, hfree, Option.bind_eq_bind, Option.bind_some]
  exact foldlM_augmentRow hm hs hvisited

theorem solveSquare_of : solveSquare m = some (.ofOptimum m (optimum m.costs)) := by
  have hq : m.isSquare = true := beq_iff_eq.2 hs
  have hrewrite := rewrite_of hm hs (optimum m.costs) (optimum m.costs).matching
  have hassign := assignment_of (optimum m.costs)
  unfold solveSquare
  rw [if_pos hq]
  split
  · next h0 =>
    -- nothing is left to do, and the loops say so too
    have hreduced := Option.some.inj (hrewrite.symm.trans (rewrite_of_no_rows h0 _))
    have hzeros := Option.some.inj (hassign.symm.trans (assignment_of_no_rows h0 _))
    show some _ = some (SquareSolution.mk (optimum m.costs).assignment
      (SquareSolution.ofOptimum m (optimum m.costs)).reduced)
    rw [hreduced, hzeros]
  · simp only [run_of hm hs, hrewrite, hassign, Option.bind_eq_bind, Option.bind_some]
    rfl

end

theorem run_of_not_complete {m : Matrix} (h : ¬ m.Complete) : run m = none := by
  unfold run
  rw [reduce_of_not_complete h]
  rfl

/-- Solving a square matrix in its place is solving it. -/
theorem solveSquare_eq (m : Matrix) : solveSquare m = m.solveSquare.run.value.toOption := by
  by_cases hs : m.rows = m.cols
  · by_cases hc : m.Complete
    · rw [solveSquare_of hc hs, Matrix.solveSquare_run hs hc]
      rfl
    · have h0 : m.rows ≠ 0 := hs ▸ Nat.ne_of_gt (Matrix.cols_pos_of_missing hc)
      have hq : m.isSquare = true := beq_iff_eq.2 hs
      unfold solveSquare
      rw [if_pos hq, if_neg h0, run_of_not_complete hc,
        Matrix.solveSquare_of_not_complete hs hc]
      rfl
  · have hq : ¬ m.isSquare = true := fun h => hs (beq_iff_eq.1 h)
    unfold solveSquare
    rw [if_neg hq, Matrix.solveSquare_of_not_square hs]
    rfl

end Indexed

/-- Solving in place is solving. -/
theorem Indexed.solve_eq (m : Matrix) (o : Objective) :
    Indexed.solve m o = (LinearAssignment.solve m o).run.value := by
  unfold Indexed.solve
  rw [pad_eq, solve_value]
  cases hp : Padded.ofMatrix m o with
  | error e => rfl
  | ok p =>
    obtain ⟨hw, hrows, hcols⟩ := Padded.ofMatrix_shape hp
    have hs := hrows.trans hcols.symm
    have hsolve := solveSquare_of hw.complete hs
    show (match solveSquare p.matrix with
      | some s => assemble m p s.assignment s.reduced o
      | none => throw (.fault .missingCells)) =
        (p.matrix.solveSquare.run.value.mapError Failure.fault).bind fun s =>
          Solution.assemble m p s.assignment s.reduced o
    rw [hsolve, Matrix.solveSquare_run hs hw.complete]
    exact assemble_eq m p _ _ o

end LinearAssignment
