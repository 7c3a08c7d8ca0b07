/-
The rounds of a search as covering steps. A cell is covered by its row when that row is outside the
tree, and by its column when that column is in it. Though a search keeps only the slack of each column
and looks at one new row in each round, the slack is at all times the least reduced cost of the column
among all tree rows. So a round finds the least uncovered cell, in the lowest column that has one,
subtracts it from the uncovered cells, and adds it to the cells covered twice.
-/
import LinearAssignment.Proofs.Bounds
import LinearAssignment.Proofs.Square

namespace LinearAssignment

variable {n : Nat}

/-! ## The nearest column -/

/-- Of several arguments with the least value, `minOn?` takes the first. -/
theorem minOn?_le_of_le {f : Fin n → Int} :
    ∀ {l : List (Fin n)} {j : Fin n}, l.Pairwise (· < ·) → l.minOn? f = some j →
      ∀ k ∈ l, f k ≤ f j → j ≤ k
  | [], _, _, h, _, _, _ => by rw [List.minOn?_nil] at h; cases h
  | a :: l, j, hl, h, k, hk, hle => by
    obtain ⟨ha, hl⟩ := List.pairwise_cons.1 hl
    rw [List.minOn?_cons, Option.some.injEq] at h
    cases hb : l.minOn? f with
    | none =>
      have hnil : l = [] := by
        by_contra hne
        rw [List.minOn?_eq_some_minOn hne] at hb
        cases hb
      rw [hb, Option.elim_none] at h
      subst h hnil
      exact Fin.le_of_eq (List.mem_singleton.1 hk).symm
    | some b =>
      rw [hb, Option.elim_some, minOn] at h
      split at h
      · -- the head is least, and nothing in the list is before it
        subst h
        rcases List.mem_cons.1 hk with rfl | hk
        · exact Fin.le_refl _
        · exact Fin.le_of_lt (ha k hk)
      · next hlt =>
        subst h
        rcases List.mem_cons.1 hk with rfl | hk
        · exact absurd hle hlt
        · exact minOn?_le_of_le hl hb k hk hle

theorem SearchTree.nearest?_lowest {t : SearchTree n} {j k : Fin n} (h : t.nearest? = some j)
    (hk : t.cols.get k = false) (hle : t.slack.get k ≤ t.slack.get j) : j ≤ k :=
  minOn?_le_of_le ((List.pairwise_lt_finRange n).filter _) h k (mem_outside.2 hk) hle

/-! ## Slacks -/

namespace Search

variable {c : Costs n} {m : Matching n} {t : Search n} {root : Fin n}

/-- A column outside the tree has as its slack the least of its reduced costs in tree rows. -/
theorem Inv.slack_isLeast (h : t.Inv c m) {k : Fin n} (hk : k ∉ t.tree.colSet) :
    IsLeast {x | ∃ i ∈ t.tree.rowSet, t.potentials.reduced c i k = x} (t.tree.slack.get k) := by
  have hout : t.tree.cols.get k = false := by simpa [SearchTree.mem_colSet] using hk
  constructor
  · -- it is attained in the row that the pointer of the column leads to
    obtain ⟨i, hi⟩ := h.matched _ (h.via k)
    refine ⟨i, SearchTree.mem_rowSet.2 (h.row_mem hi), ?_⟩
    rw [h.reached i k hi, if_neg (by simp [hout])]
  · rintro x ⟨i, hi, rfl⟩
    exact h.slack_le i k (SearchTree.mem_rowSet.1 hi) hout

/-! ## Covering steps -/

/-- A round of a search over the matching `m` leads from `t` to `t'` by the amount `d` and takes the
column `j`. Uncovered are the cells with a tree row and no tree column, covered twice those with a tree
column and no tree row. -/
structure CoveringStep (c : Costs n) (m : Matching n) (t t' : Search n) (d : Int) (j : Fin n) :
    Prop where
  /-- The tree rows are those in the slots of the tree. -/
  rows : ∀ i, i ∈ t.tree.rowSet ↔ ∃ u, t.tree.Has u ∧ m.rowAt u = some i
  /-- The amount is the least uncovered reduced cost. -/
  amount : IsLeast
    {x | ∃ i ∈ t.tree.rowSet, ∃ k, k ∉ t.tree.colSet ∧ t.potentials.reduced c i k = x} d
  /-- The column is the lowest one in which it is attained. -/
  column : IsLeast
    {k | k ∉ t.tree.colSet ∧ ∃ i ∈ t.tree.rowSet, t.potentials.reduced c i k = d} j
  slack : ∀ k, k ∉ t.tree.colSet →
    IsLeast {x | ∃ i ∈ t.tree.rowSet, t.potentials.reduced c i k = x} (t.tree.slack.get k)
  slack_after : ∀ k, k ∉ t.tree.colSet →
    IsLeast {x | ∃ i ∈ t.tree.rowSet, t'.potentials.reduced c i k = x} (t'.tree.slack.get k)
  /-- The tree does not change before the new column joins it. -/
  same : t'.tree.rowSet = t.tree.rowSet ∧ t'.tree.colSet = t.tree.colSet
  uncovered : ∀ i k, i ∈ t.tree.rowSet → k ∉ t.tree.colSet →
    t'.potentials.reduced c i k = t.potentials.reduced c i k - d
  twice : ∀ i k, i ∉ t.tree.rowSet → k ∈ t.tree.colSet →
    t'.potentials.reduced c i k = t.potentials.reduced c i k + d
  once : ∀ i k, (i ∈ t.tree.rowSet ↔ k ∈ t.tree.colSet) →
    t'.potentials.reduced c i k = t.potentials.reduced c i k

theorem reduced_raise (t : Search n) (d : Int) (c : Costs n) (i k : Fin n) :
    (t.raise d).potentials.reduced c i k = t.potentials.reduced c i k -
      (if i ∈ t.tree.rowSet then d else 0) + (if k ∈ t.tree.colSet then d else 0) := by
  simp only [SearchTree.mem_rowSet, SearchTree.mem_colSet]
  exact t.potentials.reduced_raise t.tree d c i k

theorem Inv.coveringStep (h : t.Inv c m) (hm : m.Seated root) {j : Fin n}
    (hj : t.tree.nearest? = some j) :
    CoveringStep c m t (t.raise (t.tree.slack.get j)) (t.tree.slack.get j) j := by
  obtain ⟨hout, hle⟩ := SearchTree.nearest?_some hj
  have hcol : ∀ k, k ∉ t.tree.colSet ↔ t.tree.cols.get k = false := by simp [SearchTree.mem_colSet]
  have hjout : j ∉ t.tree.colSet := (hcol j).2 hout
  obtain ⟨i, hi, hij⟩ := (h.slack_isLeast hjout).1
  refine ⟨fun i => ?_, ⟨⟨i, hi, j, hjout, hij⟩, ?_⟩, ⟨⟨hjout, i, hi, hij⟩, ?_⟩,
    fun k hk => h.slack_isLeast hk, fun k hk => (h.raise_nearest hm hj).1.slack_isLeast hk,
    ⟨rfl, rfl⟩, fun i k hi hk => ?_, fun i k hi hk => ?_, fun i k hik => ?_⟩
  · rw [SearchTree.mem_rowSet]
    exact h.rows i
  · rintro x ⟨i, hi, k, hk, rfl⟩
    exact Int.le_trans (hle k ((hcol k).1 hk)) ((h.slack_isLeast hk).2 ⟨i, hi, rfl⟩)
  · rintro k ⟨hk, i, hi, hd⟩
    -- a column that attains the amount has no greater slack than the nearest one
    refine SearchTree.nearest?_lowest hj ((hcol k).1 hk) ?_
    rw [← hd]
    exact (h.slack_isLeast hk).2 ⟨i, hi, rfl⟩
  · rw [reduced_raise, if_pos hi, if_neg hk, Int.add_zero]
  · rw [reduced_raise, if_neg hi, if_pos hk, Int.sub_zero]
  · rw [reduced_raise]
    by_cases hi : i ∈ t.tree.rowSet
    · rw [if_pos hi, if_pos (hik.1 hi), Int.sub_add_cancel]
    · rw [if_neg hi, if_neg fun hk => hi (hik.2 hk), Int.sub_zero, Int.add_zero]

end Search

/-! ## The run -/

variable {c : Costs n}

/-- At every point of the run where a tree has just got a row, the next step is a covering step. -/
theorem Point.Visited.exists_coveringStep {s : Progress n} {root : Fin n} {todo : List (Fin n)}
    {t : Search n} (h : (Point.grown s root todo t).Visited c) :
    ∃ t' d j, Step c (.grown s root todo t) (.raised s root todo t' j) ∧
      Search.CoveringStep c (s.matching.seat root) t t' d j := by
  obtain ⟨hs, hi⟩ := h.sound
  cases hj : t.tree.nearest? with
  | none =>
    obtain ⟨k, hk⟩ := hi.exists_outside hs.seated
    rw [SearchTree.nearest?_none hj k] at hk
    cases hk
  | some j => exact ⟨_, _, j, .raise hj, hi.coveringStep hs.seated hj⟩

/-- The square matrix `m` is solved by a run each of whose rounds is a covering step. -/
structure Matrix.SolvedByCovering (m : Matrix) : Prop where
  solved : m.solveSquare.run.value = .ok (.ofOptimum m (optimum m.costs))
  ends : ∃ last : Progress m.rows, (Point.between last []).Visited m.costs ∧
    last.potentials = (optimum m.costs).potentials ∧ last.matching = (optimum m.costs).matching
  rounds : ∀ (s : Progress m.rows) (root : Fin m.rows) (todo : List (Fin m.rows)) (t : Search m.rows),
    (Point.grown s root todo t).Visited m.costs →
      ∃ t' d j, Step m.costs (.grown s root todo t) (.raised s root todo t' j) ∧
        Search.CoveringStep m.costs (s.matching.seat root) t t' d j

/-- Searching with slacks and potentials comes down to covering steps on the matrix of reduced costs. -/
theorem Matrix.solvedByCovering_of_square (m : Matrix) (hw : m.WellFormed) (hs : m.rows = m.cols) :
    m.SolvedByCovering :=
  ⟨by rw [solveSquare_run hs hw.complete], exists_visited_optimum m.costs,
    fun _ _ _ _ h => h.exists_coveringStep⟩

/-- On the multiplication table there are such rounds. -/
theorem Matrix.solvedByCovering_timesTable : timesTable.WellFormed ∧ timesTable.rows = timesTable.cols ∧
    (∃ s root todo t, (Point.grown s root todo t).Visited timesTable.costs) ∧
      timesTable.SolvedByCovering := by
  obtain ⟨s, root, todo, h⟩ := exists_visited_timesTable
  exact ⟨by decide, rfl, ⟨s, root, todo, _, h.tail .start⟩,
    solvedByCovering_of_square timesTable (by decide) rfl⟩

end LinearAssignment
