/-
Padding in place. The square begins with zeros everywhere, and the costs of one row after the other are
written over its upper left corner. Every row that is taken out of a storage, every part of a row and
every place that is written to is checked, so that padding in place could fail at each of them. It ends
like padding all the same, for matrices with missing cells too: the only fault is a row that is not
stored.
-/
import LinearAssignment.Padded
import LinearAssignment.Proofs.Indexed.Basic
import LinearAssignment.Proofs.Matrix

namespace LinearAssignment.Indexed

/-- Writes what `f` makes of the cells over those from place `k` on. -/
def fill (f : Cell → Except Error Cell) : Nat → List Cell → Array Cell → Except Failure (Array Cell)
  | _, [], a => .ok a
  | k, c :: cs, a => do
    let d ← f c
    match write a k d with
    | some a => fill f (k + 1) cs a
    | none => throw (.fault .missingCells)

/-- Writes the costs of row `i` over the first cells of row `i` of the square. As costs are cells
themselves, they are copied, for which there have to be equally many; utilities are transformed one by
one, as long as there are places. -/
def fillRow (m : Matrix) (o : Objective) (square : Matrix) (i : Nat) : Except Failure Matrix := do
  let place ← square.row i
  if place.length < m.cols then throw (.fault .missingCells)
  else
    let source ← m.row i
    if o = .minimizeCost ∧ source.length ≠ m.cols then throw (.fault .missingCells)
    else
      let data ← fill (o.cost (m.max?.getD 0)) (i * square.cols) (source.take m.cols) square.data
      return { square with data := data }

/-- Pads a matrix in place. -/
def pad (m : Matrix) (o : Objective) : Except Failure Padded :=
  if m.isEmpty then throw (.error (.emptyMatrix m.rows m.cols))
  else do
    let n := max m.rows m.cols
    let square ← (List.range m.rows).foldlM (fillRow m o) (.zeros n n)
    return ⟨square, m.rows, m.cols⟩

/-! ## One cell -/

/-- The cell at a position of rows of any length, `0` past their ends. -/
def cellAt (rs : List (List Cell)) (i j : Nat) : Cell := ((rs[i]?).bind (·[j]?)).getD 0

variable {n : Nat} {rs : List (List Cell)} {ds : List Cell}

theorem getElem?_concat {α : Type} (l : List α) (x : α) (k : Nat) :
    (l ++ [x])[k]? = if k = l.length then some x else l[k]? := by
  grind

theorem cellAt_concat (i j : Nat) :
    cellAt (rs ++ [ds]) i j = if i = rs.length then ds[j]?.getD 0 else cellAt rs i j := by
  unfold cellAt
  rw [getElem?_concat]
  split <;> rfl

theorem data_square (n : Nat) (rs : List (List Cell)) :
    (Padded.square n rs).data = cells fun k : Fin (n * n) => cellAt rs (k / n) (k % n) := rfl

theorem square_nil (n : Nat) : Padded.square n [] = .zeros n n := by
  have hdata : (Padded.square n []).data = .replicate (n * n) 0 := by
    rw [replicate_eq_cells]
    rfl
  exact congrArg (Matrix.mk n n) hdata

/-- A row of which nothing is written yet is a row of zeros. -/
theorem square_concat_nil (n : Nat) (rs : List (List Cell)) :
    Padded.square n (rs ++ [[]]) = Padded.square n rs := by
  have hcell : ∀ i j, cellAt (rs ++ [[]]) i j = cellAt rs i j := by
    intro i j
    rw [cellAt_concat]
    split
    · next h =>
      rw [h, cellAt, List.getElem?_eq_none (Nat.le_refl _)]
      rfl
    · rfl
  have hdata : (Padded.square n (rs ++ [[]])).data = (Padded.square n rs).data := by
    simp only [data_square, hcell]
  exact congrArg (Matrix.mk n n) hdata

/-- Writing one more cell after those of the last row. -/
theorem write_square (hr : rs.length < n) (hd : ds.length < n) (d : Cell) :
    write (Padded.square n (rs ++ [ds])).data (rs.length * n + ds.length) d =
      some (Padded.square n (rs ++ [ds ++ [d]])).data := by
  have hk : rs.length * n + ds.length < n * n := Matrix.index_lt hr hd
  have hplace : ∀ k : Fin (n * n), k = ⟨rs.length * n + ds.length, hk⟩ ↔
      k.val / n = rs.length ∧ k.val % n = ds.length := by
    intro k
    rw [Fin.ext_iff]
    exact Matrix.eq_index_iff hd
  rw [data_square, data_square]
  refine (write_cells _ ⟨rs.length * n + ds.length, hk⟩ d).trans (congrArg some (congrArg cells ?_))
  funext k
  simp only [Function.update_apply, cellAt_concat, getElem?_concat, hplace]
  by_cases hi : k.val / n = rs.length
  · by_cases hj : k.val % n = ds.length
    · simp [hi, hj]
    · simp [hi, hj]
  · simp [hi]

/-! ## One row -/

/-- Writing the cells of a row after those that are there already. -/
theorem fill_square (f : Cell → Except Error Cell) (hr : rs.length < n) (cs ds : List Cell)
    (hl : ds.length + cs.length ≤ n) :
    fill f (rs.length * n + ds.length) cs (Padded.square n (rs ++ [ds])).data =
      ((cs.mapM f).mapError .error).map fun es => (Padded.square n (rs ++ [ds ++ es])).data := by
  induction cs generalizing ds with
  | nil =>
    rw [List.mapM_nil]
    show Except.ok _ = Except.ok (Padded.square n (rs ++ [ds ++ []])).data
    rw [List.append_nil]
  | cons c cs ih =>
    rw [List.length_cons] at hl
    rw [List.mapM_cons]
    cases hf : f c with
    | error e =>
      unfold fill
      rw [hf]
      rfl
    | ok d =>
      -- the place of the next cell is told by the length of what is written
      have hnext := ih (ds ++ [d]) (by simp; omega)
      rw [List.length_append, List.length_singleton, ← Nat.add_assoc] at hnext
      unfold fill
      rw [hf]
      show (match write _ _ d with
        | some a => fill f _ cs a
        | none => _) = _
      rw [write_square hr (by omega)]
      refine hnext.trans ?_
      cases cs.mapM f with
      | error e => rfl
      | ok es =>
        show Except.ok (Padded.square n (rs ++ [ds ++ [d] ++ es])).data =
          Except.ok (Padded.square n (rs ++ [ds ++ d :: es])).data
        rw [List.append_assoc, List.singleton_append]

variable {m : Matrix} {o : Objective}

/-- Row `i` of the square is there and long enough. -/
theorem fillRow_eq {i : Nat} (hi : i < n) (hc : m.cols ≤ n) {r : Except Fault (List Cell)}
    (hrow : m.row i = r) :
    fillRow m o (Padded.square n rs) i = (do
      let source ← r
      if o = .minimizeCost ∧ source.length ≠ m.cols then throw (.fault .missingCells)
      else
        let data ← fill (o.cost (m.max?.getD 0)) (i * n) (source.take m.cols) (Padded.square n rs).data
        return ⟨n, n, data⟩) := by
  have hstored : (i + 1) * n ≤ (Padded.square n rs).data.size :=
    Nat.le_trans (Nat.mul_le_mul_right n hi) (Nat.le_of_eq (Matrix.wellFormed_ofFn _).symm)
  have hplace : (Padded.square n rs).row i = .ok ((Padded.square n rs).slice i) := if_pos hstored
  have hlen : ((Padded.square n rs).slice i).length = n := Matrix.length_slice hstored
  unfold fillRow
  rw [hplace, hrow]
  exact if_neg (by omega)

/-- All checks on a row that is stored succeed. -/
theorem fillRow_stored (hr : rs.length < n) (hc : m.cols ≤ n)
    (hs : (rs.length + 1) * m.cols ≤ m.data.size) :
    fillRow m o (Padded.square n rs) rs.length =
      (((m.slice rs.length).mapM (o.cost (m.max?.getD 0))).mapError .error).map fun ds =>
        Padded.square n (rs ++ [ds]) := by
  have hlen := Matrix.length_slice hs
  have hfill := fill_square (o.cost (m.max?.getD 0)) hr (m.slice rs.length) [] (by simp; omega)
  rw [square_concat_nil, List.length_nil, Nat.add_zero] at hfill
  rw [fillRow_eq hr hc (r := .ok (m.slice rs.length)) (if_pos hs)]
  refine (if_neg fun h => h.2 hlen).trans ?_
  rw [List.take_of_length_le hlen.le, hfill]
  cases (m.slice rs.length).mapM (o.cost (m.max?.getD 0)) <;> rfl

theorem fillRow_missing {i : Nat} (hi : i < n) (hc : m.cols ≤ n)
    (hs : ¬ (i + 1) * m.cols ≤ m.data.size) :
    fillRow m o (Padded.square n rs) i = .error (.fault .missingCells) := by
  rw [fillRow_eq hi hc (r := .error .missingCells) (if_neg hs)]
  rfl

/-! ## All rows -/

/-- Filling rows that are stored. -/
theorem foldlM_fillRow (hc : m.cols ≤ n) (k : Nat) (rs : List (List Cell)) (hk : rs.length + k ≤ n)
    (hs : ∀ i < rs.length + k, (i + 1) * m.cols ≤ m.data.size) :
    (List.range' rs.length k).foldlM (fillRow m o) (Padded.square n rs) =
      (((List.range' rs.length k).mapM fun i => (m.slice i).mapM (o.cost (m.max?.getD 0))).mapError
        .error).map fun es => Padded.square n (rs ++ es) := by
  induction k generalizing rs with
  | zero =>
    show Except.ok _ = Except.ok (Padded.square n (rs ++ []))
    rw [List.append_nil]
  | succ k ih =>
    rw [List.range'_succ, List.foldlM_cons, List.mapM_cons,
      fillRow_stored (by omega) hc (hs rs.length (by omega))]
    cases (m.slice rs.length).mapM (o.cost (m.max?.getD 0)) with
    | error e => rfl
    | ok ds =>
      have hlen : (rs ++ [ds]).length = rs.length + 1 := by simp
      have hnext := ih (rs ++ [ds]) (by omega) fun i hi => hs i (by omega)
      rw [hlen] at hnext
      refine hnext.trans ?_
      cases (List.range' (rs.length + 1) k).mapM fun i => (m.slice i).mapM (o.cost (m.max?.getD 0)) with
      | error e => rfl
      | ok es =>
        show Except.ok (Padded.square n (rs ++ [ds] ++ es)) = Except.ok (Padded.square n (rs ++ ds :: es))
        rw [List.append_assoc, List.singleton_append]

/-- The costs of the full rows, filled in. -/
theorem foldlM_fillRow_full (hr : m.fullRowCount ≤ n) (hc : m.cols ≤ n) :
    (List.range m.fullRowCount).foldlM (fillRow m o) (.zeros n n) =
      ((Padded.costRows m o).mapError .error).map fun rs => Padded.square n rs := by
  have hfull := foldlM_fillRow (o := o) hc m.fullRowCount [] (by simp; omega) fun i hi =>
    Matrix.stored_of_lt_fullRowCount (by simpa using hi)
  rw [List.length_nil, square_nil, ← List.range_eq_range'] at hfull
  unfold Padded.costRows Matrix.fullRows
  rw [List.mapM_map]
  exact hfull

/-- Filling all rows ends as the costs do, and for want of cells only after the last full row. -/
theorem foldlM_fillRow_range (hr : m.rows ≤ n) (hc : m.cols ≤ n) :
    (List.range m.rows).foldlM (fillRow m o) (.zeros n n) =
      match Padded.costRows m o with
      | .error e => .error (.error e)
      | .ok rs => if m.Complete then .ok (Padded.square n rs) else .error (.fault .missingCells) := by
  have hfull := foldlM_fillRow_full (o := o) (Nat.le_trans (Matrix.fullRowCount_le m) hr) hc
  by_cases hm : m.Complete
  · rw [← Matrix.fullRowCount_of_complete hm, hfull]
    cases Padded.costRows m o with
    | error e => rfl
    | ok rs => exact (if_pos hm).symm
  · obtain ⟨l, hl⟩ := Matrix.exists_range_rows hm
    obtain ⟨hlt, hstored⟩ := Matrix.not_stored_fullRowCount hm
    rw [hl, List.foldlM_append, hfull]
    cases Padded.costRows m o with
    | error e => rfl
    | ok rs =>
      show (m.fullRowCount :: l).foldlM (fillRow m o) (Padded.square n rs) = _
      rw [List.foldlM_cons, fillRow_missing (by omega) hc hstored]
      exact (if_neg hm).symm

/-- Padding in place is padding. -/
theorem pad_eq (m : Matrix) (o : Objective) : pad m o = Padded.ofMatrix m o := by
  have hrows := foldlM_fillRow_range (m := m) (o := o) (Nat.le_max_left m.rows m.cols)
    (Nat.le_max_right m.rows m.cols)
  unfold pad Padded.ofMatrix
  split
  · rfl
  · simp only [hrows]
    cases Padded.costRows m o with
    | error e => rfl
    | ok rs => by_cases hm : m.Complete <;> simp only [hm, if_true, if_false] <;> rfl

end LinearAssignment.Indexed
