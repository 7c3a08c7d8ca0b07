/-
The start of a run over numbered vectors. The rows of the matrix are sliced for their least cells, the
columns are gone down for the least of what remains, and then every position is tried in turn, row by row,
whether its row, its column and its reduced cost are free, free and zero. This gives the vectors of the
reduction and of the greedy matching. A matrix with cells missing does not get through the first of these
loops.
-/
import LinearAssignment.Proofs.Indexed.Augment
import LinearAssignment.Proofs.Nesting

namespace LinearAssignment

namespace Indexed

/-- The value of the least cell of a row, `0` if there is none. -/
def leastCell (row : List Cell) : Int := (row.min?.map Int64.toInt).getD 0

/-- The least of what remains in column `j` when the rows are reduced, `0` if there is no row. -/
def leastRest (m : Matrix) (row : Array Int) (j : Nat) : Option Int := do
  let rests ← (List.range m.rows).mapM fun i => do
    return (← (m.cell i j).toOption).toInt - (← row[i]?)
  return rests.min?.getD 0

/-- Writes the potential of column `j`. -/
def reduceCol (m : Matrix) (row v : Array Int) (j : Nat) : Option (Array Int) := do
  write v j (← leastRest m row j)

/-- The potentials of the columns, and 0 for the root. -/
def reduceCols (m : Matrix) (row : Array Int) : Option (Array Int) :=
  (List.range m.rows).foldlM (reduceCol m row) (.replicate (m.rows + 1) 0)

/-- Row reduction, then column reduction, with nothing matched. -/
def reduce (m : Matrix) : Option State := do
  let rows ← ((List.range m.rows).mapM m.row).toOption
  let row := (rows.map leastCell).toArray
  let col ← reduceCols m row
  return ⟨row, col, .replicate (m.rows + 1) none, .replicate m.rows none⟩

/-- Matches row `i` with column `j` if both are free and the position has reduced cost zero. -/
def tryPair (m : Matrix) (i : Nat) (s : State) (j : Nat) : Option State := do
  match ← s.colOf[i]?, ← s.rowOf[j]? with
  | none, none =>
    if (← reduced m s i j) = 0 then
      return { s with colOf := ← write s.colOf i (some j), rowOf := ← write s.rowOf j (some i) }
    else return s
  | _, _ => return s

/-- Tries all positions of row `i`. -/
def tryRow (m : Matrix) (s : State) (i : Nat) : Option State :=
  (List.range m.rows).foldlM (tryPair m i) s

/-- Tries all positions, row by row. -/
def matchZeros (m : Matrix) (s : State) : Option State := (List.range m.rows).foldlM (tryRow m) s

end Indexed

/-! ## Trying positions -/

namespace Matching

variable {n : Nat} (allowed : Fin n → Fin n → Bool)

/-- Matches row `i` with column `j` if both are free and the position is admitted. -/
def visit (i : Fin n) (b : Matching n) (j : Fin n) : Matching n :=
  if b.colOf.get i = none ∧ b.rowOf.get j = none ∧ allowed i j = true then b.pair i j else b

/-- Tries all columns for row `i`. -/
def visitRow (b : Matching n) (i : Fin n) : Matching n := (List.finRange n).foldl (visit allowed i) b

variable {allowed} {b : Matching n} {i : Fin n}

theorem foldl_visit_of_matched (h : b.colOf.get i ≠ none) (l : List (Fin n)) :
    l.foldl (visit allowed i) b = b := by
  induction l with
  | nil => rfl
  | cons j l ih =>
    rw [List.foldl_cons, visit, if_neg fun hj => h hj.1]
    exact ih

/-- A free row that tries the columns in order takes the first that is free and admitted. -/
theorem foldl_visit (h : b.colOf.get i = none) (l : List (Fin n)) :
    l.foldl (visit allowed i) b =
      match l.find? fun j => (b.rowOf.get j).isNone && allowed i j with
      | some j => b.pair i j
      | none => b := by
  induction l with
  | nil => rfl
  | cons j l ih =>
    rw [List.foldl_cons, visit]
    by_cases hj : b.rowOf.get j = none ∧ allowed i j = true
    · rw [if_pos ⟨h, hj⟩, List.find?_cons_of_pos (by simp [hj.1, hj.2])]
      exact foldl_visit_of_matched (by simp) l
    · rw [if_neg fun hp => hj hp.2, List.find?_cons_of_neg (by simpa using hj)]
      exact ih

theorem visitRow_eq_offer (h : b.colOf.get i = none) : visitRow allowed b i = offer allowed b i :=
  foldl_visit h _

/-- Trying all positions row by row offers each row its column. -/
theorem foldl_visitRow {l : List (Fin n)} (hl : l.Nodup) (hfree : ∀ i ∈ l, b.colOf.get i = none) :
    l.foldl (visitRow allowed) b = l.foldl (offer allowed) b := by
  induction l generalizing b with
  | nil => rfl
  | cons i l ih =>
    obtain ⟨hi, hd⟩ := List.nodup_cons.1 hl
    rw [List.foldl_cons, List.foldl_cons, visitRow_eq_offer (hfree i List.mem_cons_self)]
    refine ih hd fun k hk => ?_
    have hne : k ≠ i := fun e => hi (e ▸ hk)
    rw [offer_colOf_of_ne allowed b hne]
    exact hfree k (List.mem_cons_of_mem _ hk)

end Matching

namespace Indexed

/-! ## Loops over vectors -/

/-- A loop over numbers each step of which leads from one form to the next. -/
theorem foldlM_range_of_step {σ : Type} {step : σ → Nat → Option σ} {form : Nat → σ} {n : Nat}
    (h : ∀ k < n, step (form k) k = some (form (k + 1))) :
    (List.range n).foldlM step (form 0) = some (form n) := by
  induction n with
  | zero => rfl
  | succ n ih =>
    rw [List.range_succ, List.foldlM_append, ih fun k hk => h k (Nat.lt_succ_of_lt hk)]
    show [n].foldlM step (form n) = _
    rw [List.foldlM_cons, h n (Nat.lt_succ_self n)]
    rfl

theorem toArray_map_finRange {α : Type} {n : Nat} (f : Fin n → α) :
    ((List.finRange n).map f).toArray = cells f := by
  rw [← List.ofFn_eq_map, List.toArray_ofFn]
  rfl

theorem mapM_range {α : Type} {n : Nat} {f : Nat → Option α} {g : Fin n → α}
    (h : ∀ i : Fin n, f i = some (g i)) : (List.range n).mapM f = some ((List.finRange n).map g) := by
  rw [range_eq_map, List.mapM_map]
  have hfg : f ∘ Fin.val = fun i => pure (g i) := funext h
  rw [hfg, List.mapM_pure]
  rfl

/-! ## Columns one after the other -/

/-- The potentials of the slots when the columns before column `k` are reduced. -/
def slotBefore {n : Nat} (p : Potentials n) (k : Nat) (u : Slot n) : Int :=
  if number u < k then p.slot u else 0

theorem slotBefore_zero {n : Nat} (p : Potentials n) : slotBefore p 0 = fun _ => 0 := by
  funext u
  exact if_neg (Nat.not_lt_zero _)

theorem slotBefore_succ {n : Nat} (p : Potentials n) {k : Nat} (hk : k < n) :
    slotBefore p (k + 1) = Function.update (slotBefore p k) (some ⟨k, hk⟩) (p.col.get ⟨k, hk⟩) := by
  funext u
  rw [Function.update_apply]
  unfold slotBefore
  by_cases hu : u = some ⟨k, hk⟩
  · subst hu
    simp [Potentials.slot]
  · -- no other slot has the number `k`
    have hne : number u ≠ k := by
      intro h
      cases u with
      | none =>
        rw [number_none] at h
        omega
      | some j =>
        rw [number_some] at h
        exact hu (congrArg some (Fin.ext h))
    have hlt : number u < k + 1 ↔ number u < k := by omega
    simp [hu, hlt]

theorem slotBefore_initial {n : Nat} (c : Costs n) :
    slotBefore (Potentials.initial c) n = (Potentials.initial c).slot := by
  funext u
  unfold slotBefore
  cases u with
  | none => simp [Potentials.slot, Potentials.initial]
  | some j => simp

/-- The vectors of a matching without pairs. -/
theorem State.of_empty {n : Nat} (p : Potentials n) : State.of p .empty =
    ⟨cells fun i => (p.row.get i), slots p.slot, .replicate (n + 1) none, .replicate n none⟩ := by
  have hrow : (fun u : Slot n => (Matching.empty.rowAt u).map Fin.val) = fun _ => none := by
    funext u
    cases u <;> simp [Matching.empty, Matching.rowAt]
  have hcol : (fun i : Fin n => (Matching.empty.colOf.get i).map Fin.val) = fun _ => none := by
    funext i
    simp [Matching.empty]
  unfold State.of
  rw [hrow, hcol, replicate_eq_slots, replicate_eq_cells]

/-! ## Least cells -/

theorem min?_map_toInt (l : List Cell) : (l.map Int64.toInt).min? = l.min?.map Int64.toInt := by
  cases h : l.min? with
  | none =>
    rw [List.min?_eq_none_iff.1 h]
    rfl
  | some c =>
    obtain ⟨hc, hle⟩ := List.min?_eq_some_iff.1 h
    refine List.min?_eq_some_iff.2 ⟨List.mem_map_of_mem hc, fun x hx => ?_⟩
    obtain ⟨d, hd, rfl⟩ := List.mem_map.1 hx
    exact Int64.le_iff_toInt_le.1 (hle d hd)

variable {m : Matrix}

/-- Without all cells there is no reduction. -/
theorem reduce_of_not_complete (h : ¬ m.Complete) : reduce m = none := by
  have hrows : ((List.range m.rows).mapM m.row).toOption = none := by
    rw [Matrix.mapM_row, Matrix.toRows, if_neg h]
    rfl
  unfold reduce
  rw [hrows]
  rfl

section
variable (hm : m.Complete) (hs : m.rows = m.cols)
include hm hs

theorem map_toInt_slice (i : Fin m.rows) :
    (m.slice i).map Int64.toInt = (List.finRange m.rows).map (m.costs i) := by
  refine List.ext_getElem? fun j => ?_
  rcases Nat.lt_or_ge j m.cols with hj | hj
  · obtain ⟨c, hc, hv⟩ := hm.exists_cell i.isLt hj
    have hj' : j < m.rows := by omega
    rw [List.getElem?_map, Matrix.getElem?_slice _ hj, hc]
    simp [hj', Matrix.costs, hv]
  · have hj' : m.rows ≤ j := by omega
    rw [List.getElem?_map, Matrix.getElem?_slice_of_le _ hj]
    simp [hj']

theorem leastCell_slice (i : Fin m.rows) : leastCell (m.slice i) = least (m.costs i) := by
  unfold leastCell least
  rw [← min?_map_toInt, map_toInt_slice hm hs]

theorem leastRest_of (j : Fin m.rows) :
    leastRest m (cells fun i => least (m.costs i)) j = some ((Potentials.initial m.costs).col.get j) := by
  have hrest : ∀ i : Fin m.rows, (do
      return (← (m.cell i j).toOption).toInt - (← (cells fun i => least (m.costs i))[i.val]?)) =
        some (m.costs i j - least (m.costs i)) := by
    intro i
    obtain ⟨c, hc, hv⟩ := hm.exists_cell_eq i.isLt (hs ▸ j.isLt : j.val < m.cols)
    rw [hc, getElem?_cells]
    show some (c.toInt - _) = some (m.entry i j - _)
    rw [hv]
  unfold leastRest
  rw [mapM_range hrest, Potentials.initial_col]
  rfl

/-! ## Reduction -/

theorem reduceCols_of : reduceCols m (cells fun i => least (m.costs i)) =
    some (slots (Potentials.initial m.costs).slot) := by
  have hstep : ∀ k < m.rows, reduceCol m (cells fun i => least (m.costs i))
      (slots (slotBefore (Potentials.initial m.costs) k)) k =
        some (slots (slotBefore (Potentials.initial m.costs) (k + 1))) := by
    intro k hk
    have hwrite := write_slots (slotBefore (Potentials.initial m.costs) k) (some ⟨k, hk⟩)
      ((Potentials.initial m.costs).col.get ⟨k, hk⟩)
    rw [number_some] at hwrite
    rw [reduceCol, leastRest_of hm hs ⟨k, hk⟩, slotBefore_succ _ hk]
    exact hwrite
  have hloop := foldlM_range_of_step hstep
  unfold reduceCols
  rw [replicate_eq_slots, ← slotBefore_zero (Potentials.initial m.costs)]
  rw [slotBefore_initial] at hloop
  exact hloop

/-- Reduction gives the vectors of the reduced potentials. -/
theorem reduce_of : reduce m = some (State.of (Potentials.initial m.costs) .empty) := by
  have hrows : ((List.range m.rows).mapM m.row).toOption = some m.fullRows := by
    rw [Matrix.mapM_row, Matrix.toRows, if_pos hm]
    rfl
  have hrow : (m.fullRows.map leastCell).toArray = cells fun i => least (m.costs i) := by
    rw [Matrix.fullRows, Matrix.fullRowCount_of_complete hm, range_eq_map, List.map_map, List.map_map,
      ← toArray_map_finRange]
    exact congrArg List.toArray (List.map_congr_left fun i _ => leastCell_slice hm hs i)
  unfold reduce
  simp only [hrows, Option.bind_eq_bind, Option.bind_some, hrow, reduceCols_of hm hs]
  rw [State.of_empty]
  simp only [Potentials.initial_row]
  rfl

/-! ## Greedy matching -/

variable {p : Potentials m.rows}

theorem tryPair_of (b : Matching m.rows) (i j : Fin m.rows) :
    tryPair m i (State.of p b) j = some (State.of p (b.visit (p.isTight m.costs) i j)) := by
  have hcol : (State.of p b).colOf[i.val]? = some ((b.colOf.get i).map Fin.val) := getElem?_cells _ i
  have hrow : (State.of p b).rowOf[j.val]? = some ((b.rowOf.get j).map Fin.val) := rowOf_of p b j
  unfold tryPair Matching.visit
  simp only [hcol, hrow, Option.bind_eq_bind, Option.bind_some]
  cases hci : b.colOf.get i with
  | some k => simp
  | none =>
    cases hrj : b.rowOf.get j with
    | some k => simp
    | none =>
      have hred := reduced_of hm hs p b i j
      simp only [Option.map_none, hred, Option.bind_some, true_and, Potentials.isTight_iff]
      split
      · have hwriteCol : write (State.of p b).colOf i (some j.val) =
            some (State.of p (b.pair i j)).colOf := by
          refine (write_cells_map (Option.map Fin.val) (fun k => (b.colOf.get k)) i (some j)).trans ?_
          simp only [Function.update_apply, ← Matching.pair_colOf]
          rfl
        have hwriteRow : write (State.of p b).rowOf j (some i.val) =
            some (State.of p (b.pair i j)).rowOf := by
          have h := write_rowOf (p := p) (b := b) (b.pair i j) (u := some j) (r := some i) fun v => by
            cases v <;> simp [Matching.rowAt, Matching.pair]
          rwa [number_some] at h
        simp only [hwriteCol, hwriteRow, Option.bind_some]
        rfl
      · rfl

theorem tryRow_of (b : Matching m.rows) (i : Fin m.rows) :
    tryRow m (State.of p b) i = some (State.of p (b.visitRow (p.isTight m.costs) i)) := by
  unfold tryRow Matching.visitRow
  rw [range_eq_map]
  exact foldlM_of_step (fun b j => tryPair_of hm hs b i j) _ b

/-- Trying all positions from an empty matching gives the greedy matching. -/
theorem matchZeros_of : matchZeros m (State.of p .empty) =
    some (State.of p (.greedy (p.isTight m.costs))) := by
  unfold matchZeros Matching.greedy
  rw [range_eq_map, foldlM_of_step (tryRow_of hm hs),
    Matching.foldl_visitRow (List.nodup_finRange m.rows) (by simp [Matching.empty])]

end

end Indexed

end LinearAssignment
