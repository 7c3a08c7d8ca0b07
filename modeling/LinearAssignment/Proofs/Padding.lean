/-
Padding. A matrix without cells has no padded problem, and neither have utilities spread wider than
the cells; every other matrix has one, the square on its longer side that holds the costs of its
entries at their positions and 0 everywhere else.
-/
import LinearAssignment.Padded
import LinearAssignment.Proofs.Matrix
import LinearAssignment.Proofs.Pairing
import Mathlib.Tactic.Ring

namespace LinearAssignment

/-! ## Operations on every element -/

section
variable {ε α β : Type} {f : α → Except ε β}

theorem mapM_ok {g : α → β} {l : List α} (h : ∀ x ∈ l, f x = .ok (g x)) :
    l.mapM f = .ok (l.map g) := by
  induction l with
  | nil => rfl
  | cons x l ih =>
    rw [List.mapM_cons, h x List.mem_cons_self, ih fun y hy => h y (List.mem_cons_of_mem _ hy)]
    rfl

theorem ok_of_mapM_ok {l : List α} {ys : List β} (h : l.mapM f = .ok ys) :
    ∀ x ∈ l, ∃ y, f x = .ok y := by
  induction l generalizing ys with
  | nil =>
    intro x hx
    cases hx
  | cons a l ih =>
    rw [List.mapM_cons] at h
    cases ha : f a with
    | error e => rw [ha] at h; cases h
    | ok b =>
      cases hl : l.mapM f with
      | error e => rw [ha, hl] at h; cases h
      | ok bs =>
        intro x hx
        rcases List.mem_cons.1 hx with rfl | hx
        · exact ⟨b, ha⟩
        · exact ih hl x hx

theorem exists_of_mapM_error {l : List α} {e : ε} (h : l.mapM f = .error e) :
    ∃ x ∈ l, f x = .error e := by
  induction l with
  | nil => cases h
  | cons a l ih =>
    rw [List.mapM_cons] at h
    cases ha : f a with
    | error e' =>
      rw [ha] at h
      cases h
      exact ⟨a, List.mem_cons_self, ha⟩
    | ok b =>
      cases hl : l.mapM f with
      | error e' =>
        rw [ha, hl] at h
        cases h
        obtain ⟨x, hx, hxe⟩ := ih hl
        exact ⟨x, List.mem_cons_of_mem _ hx, hxe⟩
      | ok bs => rw [ha, hl] at h; cases h

end

/-! ## Costs -/

namespace Objective

/-- The cost that stands for the value `x` where `top` is the largest value. -/
def costOf (o : Objective) (top x : Int) : Int :=
  match o with
  | minimizeCost => x
  | maximizeUtility => top - x

/-- The utilities of `m` are spread so wide that some cost fits into no cell. -/
def Overflows (o : Objective) (m : Matrix) : Prop :=
  o = maximizeUtility ∧ Int64.maxValue.toInt < m.spread

theorem cost_eq (o : Objective) {m : Matrix} {c : Cell} (hc : c ∈ m.data.toList) :
    o.cost (m.max?.getD 0) c =
      if o = maximizeUtility ∧ Int64.maxValue.toInt < m.top - c.toInt then
        .error (.overflow Activity.transforming)
      else .ok (Cell.capped (o.costOf m.top c.toInt)) := by
  cases o with
  | minimizeCost =>
    rw [if_neg fun h => by cases h.1]
    show Except.ok c = .ok (Cell.capped c.toInt)
    rw [Cell.capped_toInt]
  | maximizeUtility =>
    -- no cost is negative, so only too large ones fit into no cell
    have hn : 0 ≤ m.top - c.toInt := by have := Matrix.le_top hc; omega
    have htop : (m.max?.getD 0).toInt = m.top := rfl
    unfold cost costOf
    cases hd : Cell.ofInt? (m.top - c.toInt) with
    | none => simp only [htop, hd, if_pos, (Cell.ofInt?_eq_none_iff_of_nonneg hn).1 hd, and_true]
    | some d =>
      have hle := Int64.toInt_le d
      have hv := Cell.ofInt?_eq_some_iff.1 hd
      rw [if_neg (by omega)]
      simp only [htop, hd]
      rw [← hv, Cell.capped_toInt]

theorem overflows_iff {o : Objective} {m : Matrix} : o.Overflows m ↔
    ∃ c ∈ m.data.toList, o = maximizeUtility ∧ Int64.maxValue.toInt < m.top - c.toInt := by
  unfold Overflows
  rw [Matrix.lt_spread_iff (by decide)]
  constructor
  · rintro ⟨ho, c, hc, hlt⟩
    exact ⟨c, hc, ho, hlt⟩
  · rintro ⟨c, hc, ho, hlt⟩
    exact ⟨ho, c, hc, hlt⟩

/-- Some cell of a full row has a cost that fits into no cell. -/
def Overruns (o : Objective) (m : Matrix) : Prop :=
  o = maximizeUtility ∧ ∃ row ∈ m.fullRows, ∃ c ∈ row, Int64.maxValue.toInt < m.top - c.toInt

/-- A well-formed matrix has its cells in its full rows. -/
theorem overruns_iff (o : Objective) {m : Matrix} (hw : m.WellFormed) : o.Overruns m ↔ o.Overflows m := by
  rw [overflows_iff]
  constructor
  · rintro ⟨ho, row, hrow, c, hc, hlt⟩
    exact ⟨c, hw.mem_data_iff.2 ⟨row, hrow, hc⟩, ho, hlt⟩
  · rintro ⟨c, hc, ho, hlt⟩
    obtain ⟨row, hrow, hmem⟩ := hw.mem_data_iff.1 hc
    exact ⟨ho, row, hrow, c, hmem, hlt⟩

theorem toInt_capped_costOf_of_le {o : Objective} {m : Matrix} {c : Cell} (hc : c ∈ m.data.toList)
    (h : o = maximizeUtility → m.top - c.toInt ≤ Int64.maxValue.toInt) :
    (Cell.capped (o.costOf m.top c.toInt)).toInt = o.costOf m.top c.toInt := by
  cases o with
  | minimizeCost => exact congrArg Int64.toInt (Cell.capped_toInt c)
  | maximizeUtility =>
    have hn : 0 ≤ m.top - c.toInt := by have := Matrix.le_top hc; omega
    exact (Cell.toInt_capped hn).trans (Int.min_eq_left (h rfl))

theorem toInt_capped_costOf {o : Objective} {m : Matrix} (h : ¬ o.Overflows m) {c : Cell}
    (hc : c ∈ m.data.toList) :
    (Cell.capped (o.costOf m.top c.toInt)).toInt = o.costOf m.top c.toInt :=
  toInt_capped_costOf_of_le hc fun ho => Int.not_lt.1 fun hlt => h (overflows_iff.2 ⟨c, hc, ho, hlt⟩)

end Objective

namespace Padded

variable {m : Matrix} {o : Objective}

/-- The costs of the full rows, where none of them is too large. -/
theorem costRows_of_not_overruns (h : ¬ o.Overruns m) :
    costRows m o = .ok (m.fullRows.map fun row =>
      row.map fun c => Cell.capped (o.costOf m.top c.toInt)) := by
  refine mapM_ok fun row hrow => mapM_ok fun c hc => ?_
  rw [o.cost_eq (Matrix.mem_data_of_mem_fullRows hrow hc),
    if_neg fun hlt => h ⟨hlt.1, row, hrow, c, hc, hlt.2⟩]

theorem costRows_of_overruns (h : o.Overruns m) :
    costRows m o = .error (.overflow Activity.transforming) := by
  obtain ⟨ho, row, hrow, c, hc, hlt⟩ := h
  cases hr : costRows m o with
  | ok rows =>
    obtain ⟨ys, hys⟩ := ok_of_mapM_ok hr row hrow
    obtain ⟨d, hd⟩ := ok_of_mapM_ok hys c hc
    rw [o.cost_eq (Matrix.mem_data_of_mem_fullRows hrow hc), if_pos ⟨ho, hlt⟩] at hd
    cases hd
  | error e =>
    -- no other error than this one can have come up
    obtain ⟨row, hrow, hre⟩ := exists_of_mapM_error hr
    obtain ⟨d, hmem, hde⟩ := exists_of_mapM_error hre
    rw [o.cost_eq (Matrix.mem_data_of_mem_fullRows hrow hmem)] at hde
    split at hde
    · cases hde
      rfl
    · cases hde

theorem costRows_ok (hw : m.WellFormed) (h : ¬ o.Overflows m) :
    costRows m o = .ok (m.fullRows.map fun row =>
      row.map fun c => Cell.capped (o.costOf m.top c.toInt)) :=
  costRows_of_not_overruns fun hr => h ((o.overruns_iff hw).1 hr)

theorem costRows_error (hw : m.WellFormed) (h : o.Overflows m) :
    costRows m o = .error (.overflow Activity.transforming) :=
  costRows_of_overruns ((o.overruns_iff hw).2 h)

/-! ## The padded problem -/

/-- `p` stands for the problem `m`: a square on the longer side, with the costs of the entries of `m`
at their positions and 0 elsewhere. -/
structure StandsFor (p : Padded) (m : Matrix) (o : Objective) : Prop where
  wellFormed : p.matrix.WellFormed
  matrix_rows : p.matrix.rows = max m.rows m.cols
  matrix_cols : p.matrix.cols = max m.rows m.cols
  rows : p.rows = m.rows
  cols : p.cols = m.cols
  entry : ∀ i j : Fin p.matrix.rows, p.matrix.entry i j =
    if i.val < m.rows ∧ j.val < m.cols then o.costOf m.top (m.entry i j) else 0

theorem entry_square {n : Nat} (rows : List (List Cell)) (i j : Fin n) :
    (square n rows).entry i j = (((rows[i.val]?).bind (·[j.val]?)).getD 0).toInt :=
  Matrix.entry_ofFn _ i j

/-- A padded problem is a square on the longer side that stores exactly its cells, whatever it was made
from. -/
theorem ofMatrix_shape {p : Padded} (h : ofMatrix m o = .ok p) : p.matrix.WellFormed ∧
    p.matrix.rows = max m.rows m.cols ∧ p.matrix.cols = max m.rows m.cols := by
  unfold ofMatrix at h
  split at h
  · cases h
  · split at h
    · cases h
    · split at h
      · cases h
        exact ⟨Matrix.wellFormed_ofFn _, rfl, rfl⟩
      · cases h

theorem ofMatrix_empty (h : m.isEmpty = true) :
    ofMatrix m o = .error (.error (.emptyMatrix m.rows m.cols)) := by
  unfold ofMatrix
  rw [if_pos h]

theorem ofMatrix_overflow (hw : m.WellFormed) (he : m.isEmpty = false) (h : o.Overflows m) :
    ofMatrix m o = .error (.error (.overflow Activity.transforming)) := by
  unfold ofMatrix
  rw [if_neg (by simp [he]), costRows_error hw h]

/-- Surplus cells count for the largest cell only. -/
theorem ofMatrix_of_complete (hc : m.Complete) (he : m.isEmpty = false) (h : ¬ o.Overruns m) :
    ∃ p, ofMatrix m o = .ok p ∧ p.StandsFor m o := by
  unfold ofMatrix
  rw [if_neg (by simp [he]), costRows_of_not_overruns h]
  simp only [if_pos hc]
  refine ⟨_, rfl, Matrix.wellFormed_ofFn _, rfl, rfl, rfl, rfl, fun i j => ?_⟩
  refine (entry_square _ i j).trans ?_
  by_cases hi : i.val < m.rows
  · have hrow : i.val < m.fullRowCount := by rwa [Matrix.fullRowCount_of_complete hc]
    by_cases hj : j.val < m.cols
    · obtain ⟨c, hcell, hv⟩ := hc.exists_cell hi hj
      rw [← Matrix.getElem?_slice _ hj] at hcell
      have hmem : c ∈ m.slice i.val := List.mem_of_getElem? hcell
      have hcost := Objective.toInt_capped_costOf_of_le (o := o) (Matrix.mem_data_of_mem_slice hmem)
        fun ho => Int.not_lt.1 fun hlt =>
          h ⟨ho, _, List.mem_map_of_mem (List.mem_range.2 hrow), c, hmem, hlt⟩
      rw [if_pos ⟨hi, hj⟩, ← hv, ← hcost]
      simp [Matrix.fullRows, hrow, hcell]
    · rw [if_neg fun hr => hj hr.2]
      simp [Matrix.fullRows, hrow, Matrix.getElem?_slice_of_le _ (Nat.le_of_not_lt hj)]
  · have hrow : ¬ i.val < m.fullRowCount := by rwa [Matrix.fullRowCount_of_complete hc]
    rw [if_neg fun hr => hi hr.1]
    simp [Matrix.fullRows, hrow]

theorem ofMatrix_ok (hw : m.WellFormed) (he : m.isEmpty = false) (h : ¬ o.Overflows m) :
    ∃ p, ofMatrix m o = .ok p ∧ p.StandsFor m o :=
  ofMatrix_of_complete hw.complete he fun hr => h ((o.overruns_iff hw).1 hr)

/-- Padding ends in one of three ways, and never with a fault. -/
theorem ofMatrix_outcome (o : Objective) (hw : m.WellFormed) :
    (min m.rows m.cols = 0 ∧ ofMatrix m o = .error (.error (.emptyMatrix m.rows m.cols))) ∨
      (min m.rows m.cols ≠ 0 ∧ o.Overflows m ∧
        ofMatrix m o = .error (.error (.overflow Activity.transforming))) ∨
      (min m.rows m.cols ≠ 0 ∧ ¬ o.Overflows m ∧ ∃ p, ofMatrix m o = .ok p ∧ p.StandsFor m o) := by
  by_cases he : min m.rows m.cols = 0
  · exact .inl ⟨he, ofMatrix_empty (Matrix.isEmpty_eq_true_iff.2 he)⟩
  have hne : m.isEmpty = false := Matrix.isEmpty_eq_false_iff.2 he
  by_cases ho : o.Overflows m
  · exact .inr (.inl ⟨he, ho, ofMatrix_overflow hw hne ho⟩)
  · exact .inr (.inr ⟨he, ho, ofMatrix_ok hw hne ho⟩)

/-! ## Sums of costs -/

/-- The sum of the costs at the given positions. -/
def costSum (m : Matrix) (o : Objective) (l : List (Nat × Nat)) : Int :=
  (l.map fun q => o.costOf m.top (m.entry q.1 q.2)).sum

theorem costSum_minimize (l : List (Nat × Nat)) : costSum m .minimizeCost l = m.pairSum l := rfl

theorem costSum_maximize (l : List (Nat × Nat)) :
    costSum m .maximizeUtility l = l.length * m.top - m.pairSum l := by
  unfold costSum Matrix.pairSum Objective.costOf
  induction l with
  | nil => simp
  | cons q l ih =>
    simp only [List.map_cons, List.sum_cons, List.length_cons, ih, Nat.cast_succ]
    ring

theorem StandsFor.sum_entry {p : Padded} (h : p.StandsFor m o)
    (σ : Equiv.Perm (Fin p.matrix.rows)) :
    ∑ i : Fin p.matrix.rows, p.matrix.entry i (σ i) = costSum m o (insidePairs m.rows m.cols σ) := by
  unfold costSum
  rw [sum_insidePairs σ fun i j => o.costOf m.top (m.entry i j)]
  exact Finset.sum_congr rfl fun i _ => h.entry i (σ i)

end Padded

end LinearAssignment
