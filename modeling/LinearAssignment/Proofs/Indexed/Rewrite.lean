/-
The end of a run over numbered vectors. The reduced costs are written over the cells of the matrix, one
position after the other, each computed from the cell that is still at its place; surplus cells stay as
they are. The assignment begins with zeros everywhere and gets a 1 for each row. Every access is checked,
and where all cells are stored none of them fails.
-/
import LinearAssignment.Proofs.Indexed.Reduce

namespace LinearAssignment.Indexed

variable {α : Type}

/-- Writes the reduced cost of a position over its cell, as far as a cell can hold it. -/
def rewriteCell (s : State) (i : Nat) (m : Matrix) (j : Nat) : Option Matrix := do
  (m.setCell i j (Cell.capped (← reduced m s i j))).toOption

/-- Rewrites the first `n` cells of row `i`. -/
def rewriteRow (s : State) (n : Nat) (m : Matrix) (i : Nat) : Option Matrix :=
  (List.range n).foldlM (rewriteCell s i) m

/-- Rewrites all rows of a square matrix. -/
def rewrite (s : State) (m : Matrix) : Option Matrix :=
  (List.range m.rows).foldlM (rewriteRow s m.rows) m

/-- Marks the column of row `i` in the matrix `a`. -/
def mark (s : State) (a : Matrix) (i : Nat) : Option Matrix := do
  match ← s.colOf[i]? with
  | some j => (a.setCell i j 1).toOption
  | none => return a

/-- The matching as a matrix. -/
def assignment (s : State) (n : Nat) : Option Matrix := (List.range n).foldlM (mark s) (.zeros n n)

/-! ## One storage over another -/

/-- The vector `a` with its first `k` values replaced by those of `b`. -/
def overlay (b a : Array α) (k : Nat) : Array α := b.extract 0 k ++ a.extract k a.size

variable {a b : Array α} {k : Nat}

theorem overlay_zero (b a : Array α) : overlay b a 0 = a := by simp [overlay]

theorem getElem?_overlay (hb : k ≤ b.size) (q : Nat) :
    (overlay b a k)[q]? = if q < k then b[q]? else a[q]? := by
  have hsize : (b.extract 0 k).size = k := by
    rw [Array.size_extract, Nat.min_eq_left hb, Nat.sub_zero]
  rw [overlay, Array.getElem?_append, hsize]
  split
  · next hq =>
    rw [Array.getElem?_extract, Nat.sub_zero, Nat.zero_add, Nat.min_eq_left hb, if_pos hq]
  · next hq =>
    rw [Array.getElem?_extract, Nat.min_self, Nat.add_sub_cancel' (Nat.not_lt.1 hq)]
    split
    · rfl
    · exact (Array.getElem?_eq_none (by omega)).symm

/-- The next value of `b` goes over that of `a`. -/
theorem write_overlay (hb : k < b.size) (ha : k < a.size) :
    write (overlay b a k) k b[k] = some (overlay b a (k + 1)) := by
  have hk : k < (overlay b a k).size := by
    rw [overlay, Array.size_append, Array.size_extract, Array.size_extract]
    omega
  unfold write
  rw [dif_pos hk, Option.some.injEq]
  refine Array.ext_getElem? fun q => ?_
  rw [Array.getElem?_set, getElem?_overlay (Nat.le_of_lt hb), getElem?_overlay hb]
  by_cases hq : k = q
  · subst hq
    rw [if_pos rfl, if_pos (Nat.lt_succ_self k), Array.getElem?_eq_getElem hb]
  · have hlt : q < k + 1 ↔ q < k := by omega
    rw [if_neg hq]
    simp only [hlt]

/-! ## Cells of a matrix -/

variable {m : Matrix} {i j : Nat}

theorem setCell_toOption (hi : i < m.rows) (hj : j < m.cols) (c : Cell) :
    (m.setCell i j c).toOption =
      (write m.data (i * m.cols + j) c).map fun d => { m with data := d } := by
  unfold Matrix.setCell write
  rw [if_pos ⟨hi, hj⟩]
  split <;> rfl

/-- Writing into a matrix made from a function. -/
theorem setCell_ofFn {rows cols : Nat} (f : Fin rows → Fin cols → Cell) (i : Fin rows) (j : Fin cols)
    (c : Cell) : ((Matrix.ofFn rows cols f).setCell i j c).toOption =
      some (.ofFn rows cols fun k l => if k = i ∧ l = j then c else f k l) := by
  have hk := Matrix.index_lt i.isLt j.isLt
  have hwrite : write (Matrix.ofFn rows cols f).data (i * (Matrix.ofFn rows cols f).cols + j) c =
      some (Matrix.ofFn rows cols fun k l => if k = i ∧ l = j then c else f k l).data := by
    refine (write_cells _ ⟨i * cols + j, hk⟩ c).trans (congrArg (fun g => some (cells g)) ?_)
    funext q
    have hq : q = ⟨i * cols + j, hk⟩ ↔ (⟨q / cols, Matrix.div_cols_lt q⟩ : Fin rows) = i ∧
        (⟨q % cols, Matrix.mod_cols_lt q⟩ : Fin cols) = j := by
      rw [Fin.ext_iff, Fin.ext_iff, Fin.ext_iff]
      exact Matrix.eq_index_iff j.isLt
    rw [Function.update_apply]
    simp only [hq]
  rw [setCell_toOption (m := Matrix.ofFn rows cols f) i.isLt j.isLt, hwrite]
  rfl

theorem reduced_congr {m' : Matrix} (s : State) (h : m'.cell i j = m.cell i j) :
    reduced m' s i j = reduced m s i j := by
  unfold reduced
  rw [h]

/-- The matrix `m` with its first `k` cells replaced by those of `b`. -/
def overlaid (m : Matrix) (b : Array Cell) (k : Nat) : Matrix := { m with data := overlay b m.data k }

theorem cell_overlaid {b : Array Cell} (hb : i * m.cols + j ≤ b.size) :
    (overlaid m b (i * m.cols + j)).cell i j = m.cell i j := by
  have hget : (overlay b m.data (i * m.cols + j))[i * m.cols + j]? = m.data[i * m.cols + j]? := by
    rw [getElem?_overlay hb, if_neg (Nat.lt_irrefl _)]
  unfold Matrix.cell overlaid
  simp only [hget]

section
variable (hm : m.Complete) (hs : m.rows = m.cols) (o : Optimum m.rows) (b : Matching m.rows)
include hm hs

theorem rewriteCell_of (i j : Fin m.rows) :
    rewriteCell (State.of o.potentials b) i (overlaid m (o.reduced m.costs).data (i * m.cols + j)) j =
      some (overlaid m (o.reduced m.costs).data (i * m.cols + j + 1)) := by
  have hj : j.val < m.cols := hs ▸ j.isLt
  have hcell : (o.reduced m.costs).data[i.val * m.cols + j.val]? =
      some (Cell.capped (o.potentials.reduced m.costs i j)) := by
    rw [← hs]
    exact Matrix.getElem?_data_ofFn _ i j
  obtain ⟨hb, hget⟩ := Array.getElem?_eq_some_iff.1 hcell
  have ha := hm.index_lt_size i.isLt hj
  -- the cell of this position is still the one of `m`
  have hred := reduced_congr (State.of o.potentials b) (cell_overlaid (m := m) (Nat.le_of_lt hb))
  rw [reduced_of hm hs] at hred
  have hwrite := write_overlay hb ha
  rw [hget] at hwrite
  have hset := setCell_toOption (m := overlaid m (o.reduced m.costs).data (i * m.cols + j))
    i.isLt hj (Cell.capped (o.potentials.reduced m.costs i j))
  unfold rewriteCell
  rw [hred, Option.bind_eq_bind, Option.bind_some, hset]
  exact congrArg (Option.map _) hwrite

theorem rewriteRow_of (i : Fin m.rows) :
    rewriteRow (State.of o.potentials b) m.rows (overlaid m (o.reduced m.costs).data (i * m.cols)) i =
      some (overlaid m (o.reduced m.costs).data ((i + 1) * m.cols)) := by
  have hstep : ∀ j < m.rows, rewriteCell (State.of o.potentials b) i
      (overlaid m (o.reduced m.costs).data (i * m.cols + j)) j =
        some (overlaid m (o.reduced m.costs).data (i * m.cols + (j + 1))) :=
    fun j hj => rewriteCell_of hm hs o b i ⟨j, hj⟩
  have hloop := foldlM_range_of_step hstep
  have hend : i.val * m.cols + m.rows = (i.val + 1) * m.cols := by rw [Nat.succ_mul, ← hs]
  rw [hend] at hloop
  exact hloop

/-- Rewriting leaves the reduced costs, and then the surplus cells. -/
theorem rewrite_of : rewrite (State.of o.potentials b) m = some (SquareSolution.ofOptimum m o).reduced := by
  have hstep : ∀ i < m.rows, rewriteRow (State.of o.potentials b) m.rows
      (overlaid m (o.reduced m.costs).data (i * m.cols)) i =
        some (overlaid m (o.reduced m.costs).data ((i + 1) * m.cols)) :=
    fun i hi => rewriteRow_of hm hs o b ⟨i, hi⟩
  have hloop := foldlM_range_of_step hstep
  have hstart : overlaid m (o.reduced m.costs).data (0 * m.cols) = m := by
    unfold overlaid
    rw [Nat.zero_mul, overlay_zero]
  have hsize : (o.reduced m.costs).data.size = m.rows * m.rows := Matrix.wellFormed_ofFn _
  have hall : (o.reduced m.costs).data.extract 0 (m.rows * m.rows) = (o.reduced m.costs).data := by
    rw [← hsize, Array.extract_size]
  have hend : overlaid m (o.reduced m.costs).data (m.rows * m.cols) =
      (SquareSolution.ofOptimum m o).reduced := by
    unfold overlaid overlay SquareSolution.ofOptimum
    rw [← hs, hall]
    rfl
  rw [hstart, hend] at hloop
  exact hloop

end

/-! ## The assignment -/

section
variable {n : Nat} (p : Potentials n) (b : Matching n)

/-- The matching as a matrix, as far as the rows before row `k` are concerned. -/
def assignmentBefore (b : Matching n) (k : Nat) : Matrix :=
  .ofFn n n fun i j => if i.val < k ∧ b.colOf.get i = some j then 1 else 0

theorem assignmentBefore_zero : assignmentBefore b 0 = .zeros n n := by
  have hdata : (assignmentBefore b 0).data = .replicate (n * n) 0 := by
    rw [replicate_eq_cells]
    simp [assignmentBefore, Matrix.ofFn, cells]
  exact congrArg (Matrix.mk n n) hdata

/-- A row without a column has no 1. -/
theorem assignmentBefore_succ_of_free {i : Fin n} (hi : b.colOf.get i = none) :
    assignmentBefore b (i + 1) = assignmentBefore b i := by
  unfold assignmentBefore
  congr 1
  funext k j
  by_cases hk : k = i
  · subst hk
    simp [hi]
  · have hlt : k.val < i.val + 1 ↔ k.val < i.val := by omega
    simp only [hlt]

theorem setCell_assignmentBefore {i j : Fin n} (hj : b.colOf.get i = some j) :
    ((assignmentBefore b i).setCell i j 1).toOption = some (assignmentBefore b (i + 1)) := by
  refine (setCell_ofFn _ i j 1).trans (congrArg (fun f => some (Matrix.ofFn n n f)) ?_)
  funext k l
  by_cases hk : k = i
  · subst hk
    by_cases hl : j = l
    · simp [hj, hl]
    · simp [hj, hl, Ne.symm hl]
  · have hlt : k.val < i.val + 1 ↔ k.val < i.val := by omega
    simp only [hk, hlt, false_and, if_false]

theorem mark_of (i : Fin n) :
    mark (State.of p b) (assignmentBefore b i) i = some (assignmentBefore b (i + 1)) := by
  have hcol : (State.of p b).colOf[i.val]? = some ((b.colOf.get i).map Fin.val) := getElem?_cells _ i
  unfold mark
  rw [hcol, Option.bind_eq_bind, Option.bind_some]
  cases hi : b.colOf.get i with
  | none => exact congrArg some (assignmentBefore_succ_of_free b hi).symm
  | some j => exact setCell_assignmentBefore b hi

end

/-- Marking the columns of all rows gives the matching as a matrix. -/
theorem assignment_of {n : Nat} (o : Optimum n) :
    assignment (State.of o.potentials o.matching) n = some o.assignment := by
  have hstep : ∀ i < n, mark (State.of o.potentials o.matching) (assignmentBefore o.matching i) i =
      some (assignmentBefore o.matching (i + 1)) :=
    fun i hi => mark_of o.potentials o.matching ⟨i, hi⟩
  have hloop := foldlM_range_of_step hstep
  have hend : assignmentBefore o.matching n = o.assignment := by
    unfold assignmentBefore Optimum.assignment
    simp
  rw [assignmentBefore_zero, hend] at hloop
  exact hloop

end LinearAssignment.Indexed
