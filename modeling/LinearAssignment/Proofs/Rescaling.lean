/-
The method on rescaled costs. Multiplying all costs by one positive number, and adding to each row a
number of its own, multiplies every reduced cost and every slack by that number and changes no
comparison between them. So the method goes through the same steps, breaks ties the same way, and ends
with the same matching and the same counts, over potentials that are rescaled as the costs are.
-/
import LinearAssignment.Proofs.Fixpoint
import LinearAssignment.Proofs.Rounds
import Mathlib.Tactic.Ring

namespace LinearAssignment

variable {n : Nat}

/-! ## Rescaled states -/

/-- The costs `k` times as large, with `s i` added in row `i`. -/
def Costs.rescale (k : Int) (s : Fin n → Int) (c : Costs n) : Costs n := fun i j => k * c i j + s i

/-- The potentials `k` times as large, with `s i` added to that of row `i`. -/
def Potentials.rescale (k : Int) (s : Fin n → Int) (p : Potentials n) : Potentials n where
  row := .ofFn fun i => k * p.row.get i + s i
  col := .ofFn fun j => k * p.col.get j
  root := k * p.root

/-- The tree with slacks `k` times as large. -/
def SearchTree.rescale (k : Int) (t : SearchTree n) : SearchTree n :=
  { t with slack := .ofFn fun j => k * t.slack.get j }

def Search.rescale (k : Int) (s : Fin n → Int) (t : Search n) : Search n where
  potentials := t.potentials.rescale k s
  tree := t.tree.rescale k
  adjustments := t.adjustments

def Progress.rescale (k : Int) (s : Fin n → Int) (p : Progress n) : Progress n where
  potentials := p.potentials.rescale k s
  matching := p.matching
  adjustments := p.adjustments

def Optimum.rescale (k : Int) (s : Fin n → Int) (o : Optimum n) : Optimum n :=
  { o with potentials := o.potentials.rescale k s }

variable {k : Int} {s : Fin n → Int} {c : Costs n}

/-! ## Reduction -/

/-- The least of rescaled values is the rescaled least value. -/
theorem least_rescale (hk : 0 < k) (i : Fin n) (f : Fin n → Int) (a : Int) :
    least (fun j => k * f j + a) = k * least f + a := by
  obtain ⟨j, hj⟩ := exists_eq_least f i
  obtain ⟨j', hj'⟩ := exists_eq_least (fun j => k * f j + a) i
  refine Int.le_antisymm ?_ ?_
  · rw [← hj]
    exact least_le (fun j => k * f j + a) j
  · rw [← hj']
    exact Int.add_le_add_right (Int.mul_le_mul_of_nonneg_left (least_le f j') hk.le) a

namespace Potentials

@[simp] theorem rescale_row (p : Potentials n) (i : Fin n) :
    (p.rescale k s).row.get i = k * p.row.get i + s i := by
  simp [rescale]

@[simp] theorem rescale_col (p : Potentials n) (j : Fin n) :
    (p.rescale k s).col.get j = k * p.col.get j := by
  simp [rescale]

/-- The shifts of the rows cancel in the reduced costs. -/
theorem reduced_rescale (p : Potentials n) (i j : Fin n) :
    (p.rescale k s).reduced (c.rescale k s) i j = k * p.reduced c i j := by
  unfold reduced Costs.rescale
  rw [rescale_row, rescale_col]
  ring

theorem isTight_rescale (hk : 0 < k) (p : Potentials n) :
    (p.rescale k s).isTight (c.rescale k s) = p.isTight c := by
  funext i j
  rw [Bool.eq_iff_iff, isTight_iff, isTight_iff, reduced_rescale, Int.mul_eq_zero]
  exact or_iff_right hk.ne'

theorem initial_rescale (hk : 0 < k) : initial (c.rescale k s) = (initial c).rescale k s := by
  have hrow : ∀ i, least (c.rescale k s i) = k * least (c i) + s i := fun i =>
    least_rescale hk i (c i) (s i)
  -- what the rows leave over has no shift any more
  have hcol : ∀ j, (least fun i => c.rescale k s i j - (k * least (c i) + s i)) =
      k * least fun i => c i j - least (c i) := by
    intro j
    have hterm : (fun i => c.rescale k s i j - (k * least (c i) + s i)) =
        fun i => k * (c i j - least (c i)) + 0 := by
      funext i
      rw [Costs.rescale]
      ring
    rw [hterm, least_rescale hk j, Int.add_zero]
  unfold initial rescale
  simp only [get_ofFn, hrow, hcol, Int.mul_zero]

end Potentials

theorem Progress.initial_rescale (hk : 0 < k) :
    initial (c.rescale k s) = (initial c).rescale k s := by
  unfold initial rescale
  simp only [Potentials.initial_rescale hk, Potentials.isTight_rescale hk]

/-! ## Trees -/

/-- The argument of least value is the same for values `k` times as large. -/
theorem minOn?_mul (hk : 0 < k) (f : Fin n → Int) :
    ∀ l : List (Fin n), (l.minOn? fun j => k * f j) = l.minOn? f
  | [] => rfl
  | a :: l => by
    rw [List.minOn?_cons, List.minOn?_cons, minOn?_mul hk f l]
    congr 2
    funext b
    unfold minOn
    simp only [mul_le_mul_iff_right₀ hk]

namespace SearchTree

@[simp] theorem rescale_slack (t : SearchTree n) (j : Fin n) :
    (t.rescale k).slack.get j = k * t.slack.get j := by
  simp [rescale]

theorem start_rescale (root : Fin n) (f : Fin n → Int) :
    start root (fun j => k * f j) = (start root f).rescale k := by
  unfold start rescale
  simp only [get_ofFn]

theorem nearest?_rescale (hk : 0 < k) (t : SearchTree n) : (t.rescale k).nearest? = t.nearest? := by
  unfold nearest?
  simp only [rescale_slack]
  exact minOn?_mul hk _ t.outside

theorem lower_rescale (t : SearchTree n) (d : Int) :
    (t.rescale k).lower (k * d) = (t.lower d).rescale k := by
  have hslack : ∀ j : Fin n, (if t.cols.get j then k * t.slack.get j else k * t.slack.get j - k * d) =
      k * if t.cols.get j then t.slack.get j else t.slack.get j - d := by
    intro j
    split
    · rfl
    · rw [Int.mul_sub]
  unfold lower rescale
  simp only [get_ofFn, hslack]

theorem absorb_rescale (hk : 0 < k) (t : SearchTree n) (j r : Fin n) (f : Fin n → Int) :
    (t.rescale k).absorb j r (fun i => k * f i) = (t.absorb j r f).rescale k := by
  have hmin : ∀ a b : Int, min (k * a) (k * b) = k * min a b := fun a b =>
    (mul_min_of_nonneg a b hk.le).symm
  have hlt : ∀ a b : Int, k * a < k * b ↔ a < b := fun a b => mul_lt_mul_iff_right₀ hk
  unfold absorb rescale
  simp only [get_ofFn, hmin, hlt, ← mul_ite]

end SearchTree

theorem Potentials.raise_rescale (p : Potentials n) (t : SearchTree n) (d : Int) :
    (p.rescale k s).raise (t.rescale k) (k * d) = (p.raise t d).rescale k s := by
  have hrow : ∀ i : Fin n, (if t.rows.get i then k * p.row.get i + s i + k * d
      else k * p.row.get i + s i) =
        (k * if t.rows.get i then p.row.get i + d else p.row.get i) + s i := by
    intro i
    split
    · ring
    · rfl
  have hcol : ∀ j : Fin n, (if t.cols.get j then k * p.col.get j - k * d else k * p.col.get j) =
      k * if t.cols.get j then p.col.get j - d else p.col.get j := by
    intro j
    split
    · rw [Int.mul_sub]
    · rfl
  have hroot : k * p.root - k * d = k * (p.root - d) := (Int.mul_sub _ _ _).symm
  unfold raise rescale SearchTree.rescale
  simp only [get_ofFn, hrow, hcol, hroot]

/-! ## Searches -/

namespace Search

theorem start_rescale (p : Potentials n) (root : Fin n) :
    start (c.rescale k s) (p.rescale k s) root = (start c p root).rescale k s := by
  have hreduced : (p.rescale k s).reduced (c.rescale k s) root = fun j => k * p.reduced c root j :=
    funext fun j => p.reduced_rescale root j
  unfold start rescale
  rw [hreduced, SearchTree.start_rescale]

theorem raise_rescale (hk : 0 < k) (t : Search n) (d : Int) :
    (t.rescale k s).raise (k * d) = (t.raise d).rescale k s := by
  have hpos : 0 < k * d ↔ 0 < d := mul_pos_iff_of_pos_left hk
  unfold raise rescale
  simp only [Potentials.raise_rescale, SearchTree.lower_rescale, hpos]

theorem absorb_rescale (hk : 0 < k) (t : Search n) (j r : Fin n) :
    (t.rescale k s).absorb (c.rescale k s) j r = (t.absorb c j r).rescale k s := by
  have hreduced : (t.potentials.rescale k s).reduced (c.rescale k s) r =
      fun i => k * t.potentials.reduced c r i := funext fun i => t.potentials.reduced_rescale r i
  unfold absorb rescale
  rw [hreduced, SearchTree.absorb_rescale hk]

/-- The search ends at the same column. -/
theorem grow_rescale (hk : 0 < k) (m : Matching n) (t : Search n) :
    (t.rescale k s).grow (c.rescale k s) m = (t.grow c m).map fun f => (f.1, f.2.rescale k s) := by
  -- one round looks for the nearest column and raises by its slack
  have hnearest : ∀ t : Search n, (t.rescale k s).tree.nearest? = t.tree.nearest? := fun t =>
    t.tree.nearest?_rescale hk
  have hraise : ∀ (t : Search n) (j : Fin n),
      (t.rescale k s).raise ((t.rescale k s).tree.slack.get j) =
        (t.raise (t.tree.slack.get j)).rescale k s := by
    intro t j
    rw [← raise_rescale hk]
    exact congrArg (t.rescale k s).raise (t.tree.rescale_slack j)
  fun_induction grow c m t with
  | case1 t hnone =>
    rw [grow_eq_none (by rw [hnearest, hnone])]
    rfl
  | case2 t j hj raised hfree =>
    rw [grow_eq_of_nearest (by rw [hnearest, hj]), hfree, hraise]
    rfl
  | case3 t j hj raised r hr ih =>
    rw [grow_eq_of_nearest (by rw [hnearest, hj]), hr, ← ih, ← absorb_rescale hk, ← hraise]

end Search

/-! ## The method -/

theorem Progress.augment_rescale (hk : 0 < k) (p : Progress n) (root : Fin n) :
    (p.rescale k s).augment (c.rescale k s) root = (p.augment c root).rescale k s := by
  have hgrow : (Search.start (c.rescale k s) (p.rescale k s).potentials root).grow (c.rescale k s)
      (p.matching.seat root) = ((Search.start c p.potentials root).grow c (p.matching.seat root)).map
        fun f => (f.1, f.2.rescale k s) :=
    (congrArg (Search.grow _ _) (Search.start_rescale p.potentials root)).trans
      (Search.grow_rescale hk _ _)
  unfold augment
  simp only [hgrow, show (p.rescale k s).matching = p.matching from rfl]
  cases (Search.start c p.potentials root).grow c (p.matching.seat root) with
  | none => rfl
  | some f => rfl

/-- The method runs on rescaled costs as it does on the costs. -/
theorem optimum_rescale (hk : 0 < k) : optimum (c.rescale k s) = (optimum c).rescale k s := by
  have hfold : ∀ (l : List (Fin n)) (p : Progress n),
      l.foldl (Progress.augment (c.rescale k s)) (p.rescale k s) =
        (l.foldl (Progress.augment c) p).rescale k s := fun l p =>
    List.foldl_hom _ fun q root => Progress.augment_rescale hk q root
  have hfree : ((Progress.initial c).rescale k s).matching.freeRows =
      (Progress.initial c).matching.freeRows := rfl
  unfold optimum
  simp only [Progress.initial_rescale hk, hfree, hfold]
  rfl

/-! ## Square matrices -/

namespace Matrix

variable {m : Matrix} {k : Int} {s : Fin m.rows → Int}

/-- The square matrix with the cells of `m` times `k`, and `s i` added in row `i`, capped where that fits
into no cell. -/
def rescale (m : Matrix) (k : Int) (s : Fin m.rows → Int) : Matrix :=
  .ofFn m.rows m.rows fun i j => Cell.capped (k * m.entry i j + s i)

/-- All rescaled cells fit. -/
def RescaleFits (m : Matrix) (k : Int) (s : Fin m.rows → Int) : Prop :=
  ∀ i j : Fin m.rows,
    Int64.minValue.toInt ≤ k * m.entry i j + s i ∧ k * m.entry i j + s i ≤ Int64.maxValue.toInt

theorem entry_rescale (h : m.RescaleFits k s) (i j : Fin m.rows) :
    (m.rescale k s).entry i j = k * m.entry i j + s i :=
  (entry_ofFn _ i j).trans (Cell.toInt_capped_of_fits (h i j))

theorem costs_rescale (h : m.RescaleFits k s) : (m.rescale k s).costs = m.costs.rescale k s := by
  funext i j
  exact entry_rescale h i j

theorem optimum_costs_rescale (hk : 0 < k) (h : m.RescaleFits k s) :
    optimum (m.rescale k s).costs = (optimum m.costs).rescale k s :=
  (congrArg (optimum (n := m.rows)) (costs_rescale h)).trans (optimum_rescale hk)

/-- Solving the square matrix `m` and solving it rescaled is one and the same course of events: the same
assignment, the same counts, and reduced costs that are, before any is capped, `k` times as large. -/
structure SolvedAlike (m : Matrix) (k : Int) (s : Fin m.rows → Int) : Prop where
  entry : ∀ i j : Fin m.rows, (m.rescale k s).entry i j = k * m.entry i j + s i
  solved : m.solveSquare.run =
    ⟨.ok (.ofOptimum m (optimum m.costs)), SquareSolution.report m (optimum m.costs)⟩
  solved_rescaled : (m.rescale k s).solveSquare.run =
    ⟨.ok (.ofOptimum (m.rescale k s) (optimum (m.rescale k s).costs)),
      SquareSolution.report (m.rescale k s) (optimum (m.rescale k s).costs)⟩
  assignment : (SquareSolution.ofOptimum (m.rescale k s) (optimum (m.rescale k s).costs)).assignment =
    (SquareSolution.ofOptimum m (optimum m.costs)).assignment
  matchedFirst : (optimum (m.rescale k s).costs).matchedFirst = (optimum m.costs).matchedFirst
  augmentations : (optimum (m.rescale k s).costs).augmentations = (optimum m.costs).augmentations
  adjustments : (optimum (m.rescale k s).costs).adjustments = (optimum m.costs).adjustments
  /-- The reports tell the same counts. -/
  counts : Log.ofLevel .debug (SquareSolution.report (m.rescale k s) (optimum (m.rescale k s).costs)) =
    Log.ofLevel .debug (SquareSolution.report m (optimum m.costs))
  reduced : ∀ i j : Fin m.rows,
    (optimum (m.rescale k s).costs).potentials.reduced (m.rescale k s).costs i j =
      k * (optimum m.costs).potentials.reduced m.costs i j

/-- Whatever positive factor and whatever shifts of the rows, as long as the cells hold the outcome, a
square matrix is solved as before. -/
theorem solvedAlike_of_fits (m : Matrix) (hw : m.WellFormed) (hs : m.rows = m.cols) {k : Int}
    (hk : 0 < k) {s : Fin m.rows → Int} (h : m.RescaleFits k s) : m.SolvedAlike k s := by
  have hopt := optimum_costs_rescale hk h
  refine ⟨entry_rescale h, solveSquare_run hs hw.complete,
    solveSquare_run rfl (wellFormed_ofFn _).complete, ?_, ?_, ?_, ?_, ?_, fun i j => ?_⟩
  · show (optimum (m.rescale k s).costs).assignment = (optimum m.costs).assignment
    rw [hopt]
    rfl
  · rw [hopt]
    rfl
  · rw [hopt]
    rfl
  · rw [hopt]
    rfl
  · rw [SquareSolution.ofLevel_debug_report, SquareSolution.ofLevel_debug_report, hopt]
    rfl
  · rw [hopt, costs_rescale h]
    exact (optimum m.costs).potentials.reduced_rescale i j

/-- The multiplication table ten times over, with each row shifted to another end of the cells. -/
theorem solvedAlike_timesTable : timesTable.WellFormed ∧ timesTable.rows = timesTable.cols ∧
    (0 : Int) < 10 ∧
      timesTable.RescaleFits 10 ![Int64.maxValue.toInt - 30, 0, Int64.minValue.toInt - 30] ∧
      timesTable.SolvedAlike 10 ![Int64.maxValue.toInt - 30, 0, Int64.minValue.toInt - 30] := by
  have hfits : timesTable.RescaleFits 10
      ![Int64.maxValue.toInt - 30, 0, Int64.minValue.toInt - 30] := by
    unfold RescaleFits
    decide
  exact ⟨by decide, rfl, by decide, hfits, solvedAlike_of_fits timesTable (by decide) rfl (by decide) hfits⟩

end Matrix

end LinearAssignment
