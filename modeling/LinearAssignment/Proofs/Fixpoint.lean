/-
Solving what solving has left behind. Reduced costs are not negative and are zero along the assignment,
so reducing them once more finds nothing to reduce, and its bound is already the least cost. Where that
is so a run has nothing to adjust: the potentials cannot gain any value, so no raise changes them,
however many searches the second matching takes. The reduced costs come out as they went in, and the
second matching, one of zeros, has least cost for the first matrix as well.
-/
import LinearAssignment.Proofs.Bounds
import LinearAssignment.Proofs.Square

namespace LinearAssignment

variable {n : Nat} {c : Costs n}

/-! ## Runs without adjustments -/

/-- The number of raises so far that changed a potential. -/
def Point.adjustments : Point n → Nat
  | between s _ => s.adjustments
  | grown s _ _ t => s.adjustments + t.adjustments
  | raised s _ _ t _ => s.adjustments + t.adjustments

/-- Nothing has been adjusted since the reduction. -/
structure Point.Still (c : Costs n) (p : Point n) : Prop where
  potentials : p.potentials = Potentials.initial c
  adjustments : p.adjustments = 0

variable {p q : Point n}

/-- A step that leaves the root at zero adjusts nothing. -/
theorem Step.still (h : Step c p q) (hp : p.Still c) (hroot : q.potentials.root = 0) : q.Still c := by
  obtain ⟨hpot, hadj⟩ := hp
  cases h with
  | start => exact ⟨hpot, hadj⟩
  | @raise s root todo t j hj =>
    have hpot' : t.potentials = Potentials.initial c := hpot
    have hd : t.tree.slack.get j = 0 := by
      have hroot' : t.potentials.root - t.tree.slack.get j = 0 := hroot
      have h0 : (Potentials.initial c).root = 0 := rfl
      rw [hpot', h0] at hroot'
      omega
    constructor
    · show t.potentials.raise t.tree (t.tree.slack.get j) = _
      rw [hd, Potentials.raise_zero, hpot']
    · show s.adjustments + (if 0 < t.tree.slack.get j then t.adjustments + 1 else t.adjustments) = 0
      rw [hd, if_neg (by omega)]
      exact hadj
  | absorb hr => exact ⟨hpot, hadj⟩
  | flip hj => exact ⟨hpot, hadj⟩

section
variable {σ : Equiv.Perm (Fin n)}

/-- Where the reduction has the value of a permutation, the root never sinks: what it lost, the value of
the potentials would gain. -/
theorem Point.Visited.root_eq_zero (h : p.Visited c)
    (hσ : (Potentials.initial c).value = ∑ i, c i (σ i)) : p.potentials.root = 0 := by
  have htotal := h.total
  have hle := h.sound.supports.feasible.value_le σ
  have hroot : p.potentials.root ≤ 0 := h.advances.root
  unfold Potentials.total at htotal
  omega

theorem Point.Visited.still (h : p.Visited c)
    (hσ : (Potentials.initial c).value = ∑ i, c i (σ i)) : p.Still c := by
  induction h with
  | refl => exact ⟨rfl, rfl⟩
  | tail hsteps hstep ih =>
    exact hstep.still ih (Point.Visited.root_eq_zero (hsteps.tail hstep) hσ)

theorem optimum_of_value_eq (hσ : (Potentials.initial c).value = ∑ i, c i (σ i)) :
    (optimum c).potentials = Potentials.initial c ∧ (optimum c).adjustments = 0 := by
  have hend : (Point.between ((Progress.initial c).matching.freeRows.foldl (Progress.augment c)
      (Progress.initial c)) []).Visited c := foldl_augment_steps _ (Progress.initial_awaits c)
  exact ⟨(hend.still hσ).potentials, (hend.still hσ).adjustments⟩

/-! ## Reduced costs -/

/-- Reducing costs that are not negative, with zeros along a permutation, finds nothing to reduce. -/
theorem Potentials.reduced_initial_of_zeros (hc : ∀ i j, 0 ≤ c i j) (hσ : ∀ i, c i (σ i) = 0) :
    (initial c).value = 0 ∧ (initial c).reduced c = c := by
  have hrow : ∀ i, least (c i) = 0 := fun i =>
    Int.le_antisymm (hσ i ▸ least_le (c i) (σ i)) (least_nonneg i (hc i))
  have hcol : ∀ j, (initial c).col.get j = 0 := by
    intro j
    refine Int.le_antisymm ?_ (initial_col_nonneg c j)
    have hle := least_le (fun i => c i j - least (c i)) (σ.symm j)
    have hzero := hσ (σ.symm j)
    rw [Equiv.apply_symm_apply] at hzero
    rw [initial_col]
    simp only [hrow, hzero] at hle ⊢
    exact hle
  constructor
  · unfold value
    simp only [initial_row, hrow, hcol, Finset.sum_const_zero, Int.add_zero]
  · funext i j
    rw [reduced, initial_row, hrow, hcol, Int.sub_zero, Int.sub_zero]

theorem optimum_of_zeros (hc : ∀ i j, 0 ≤ c i j) (hσ : ∀ i, c i (σ i) = 0) :
    (optimum c).potentials.reduced c = c ∧ (optimum c).adjustments = 0 := by
  obtain ⟨hvalue, hred⟩ := Potentials.reduced_initial_of_zeros hc hσ
  have hsum : (Potentials.initial c).value = ∑ i, c i (σ i) := by
    rw [hvalue, Finset.sum_eq_zero fun i _ => hσ i]
  obtain ⟨hpot, hadj⟩ := optimum_of_value_eq hsum
  exact ⟨by rw [hpot, hred], hadj⟩

end

theorem augmentations_optimum_le (c : Costs n) : (optimum c).augmentations ≤ n := by
  have hlen : (Progress.initial c).matching.freeRows.length ≤ (List.finRange n).length :=
    List.length_filter_le _ _
  rwa [List.length_finRange] at hlen

/-- The report on a square matrix whose reduced costs all have cells. -/
theorem SquareSolution.report_of_exact {m : Matrix} {o : Optimum m.rows} (h0 : m.rows ≠ 0)
    (hcapped : o.cappedCount m.costs = 0) : report m o =
      [⟨.debug, s!"solving {m.rows}x{m.rows}: {m.rows - o.augmentations} rows matched by reduction"⟩,
        ⟨.debug, s!"solved {m.rows}x{m.rows}: {o.augmentations} augmentations, {o.adjustments} adjustments"⟩,
        ⟨.trace, "final cost matrix:\n" ++ String.ofList (ofOptimum m o).reduced.text⟩] := by
  unfold report
  simp only [h0, hcapped, if_false, if_true, List.append_nil]
  rfl

/-! ## Squares made from a function -/

/-- The values of cells, as costs. -/
def Costs.ofCells (f : Fin n → Fin n → Cell) : Costs n := fun i j => (f i j).toInt

namespace Matrix

variable (f : Fin n → Fin n → Cell)

theorem costs_ofFn : (ofFn n n f).costs = Costs.ofCells f := by
  funext i j
  exact entry_ofFn f i j

theorem solveSquare_ofFn {o : Optimum n} (ho : o = optimum (Costs.ofCells f)) :
    (ofFn n n f).solveSquare.run =
      ⟨.ok (.ofOptimum (ofFn n n f) o), SquareSolution.report (ofFn n n f) o⟩ := by
  have hopt : (optimum (ofFn n n f).costs : Optimum n) = o := by
    rw [ho]
    exact congrArg optimum (costs_ofFn f)
  refine (solveSquare_run rfl (wellFormed_ofFn f).complete).trans ?_
  exact congrArg (fun o : Optimum n => Logged.mk (Except.ok (SquareSolution.ofOptimum (ofFn n n f) o))
    (SquareSolution.report (ofFn n n f) o)) hopt

theorem reduced_ofOptimum_ofFn (o : Optimum n) :
    (SquareSolution.ofOptimum (ofFn n n f) o).reduced = o.reduced (Costs.ofCells f) :=
  (SquareSolution.reduced_ofOptimum (wellFormed_ofFn f) rfl).trans
    (congrArg (Optimum.reduced (n := n) o) (costs_ofFn f))

theorem report_ofFn {o : Optimum n} (h0 : n ≠ 0) (hcapped : o.cappedCount (Costs.ofCells f) = 0) :
    SquareSolution.report (ofFn n n f) o =
      [⟨.debug, s!"solving {n}x{n}: {n - o.augmentations} rows matched by reduction"⟩,
        ⟨.debug, s!"solved {n}x{n}: {o.augmentations} augmentations, {o.adjustments} adjustments"⟩,
        ⟨.trace, "final cost matrix:\n" ++ String.ofList (o.reduced (Costs.ofCells f)).text⟩] := by
  have hcapped' : Optimum.cappedCount (n := n) o (ofFn n n f).costs = 0 :=
    (congrArg (Optimum.cappedCount (n := n) o) (costs_ofFn f)).trans hcapped
  have h := SquareSolution.report_of_exact (m := ofFn n n f) (o := o) h0 hcapped'
  rw [reduced_ofOptimum_ofFn] at h
  exact h

variable {f}

/-- A square of cells that are not negative, with zeros along a permutation, is left as it is. It is
assigned along zeros, and nothing is adjusted or capped. -/
theorem solveSquare_of_zeros (hf : ∀ i j, 0 ≤ (f i j).toInt) {σ : Equiv.Perm (Fin n)}
    (hσ : ∀ i, (f i (σ i)).toInt = 0) :
    ∃ again log, (ofFn n n f).solveSquare.run = ⟨.ok again, log⟩ ∧ again.reduced = ofFn n n f ∧
      (∃ (o : Optimum n) (τ : Equiv.Perm (Fin n)), again.assignment = o.assignment ∧
        (∀ i, o.matching.colOf.get i = some (τ i)) ∧ ∀ i, (f i (τ i)).toInt = 0) ∧
      (n ≠ 0 → ∃ k ≤ n, log =
        [⟨.debug, s!"solving {n}x{n}: {n - k} rows matched by reduction"⟩,
          ⟨.debug, s!"solved {n}x{n}: {k} augmentations, 0 adjustments"⟩,
          ⟨.trace, "final cost matrix:\n" ++ String.ofList (ofFn n n f).text⟩]) := by
  obtain ⟨hred, hadj⟩ := optimum_of_zeros (c := Costs.ofCells f) hf hσ
  obtain ⟨τ, hτ, htight⟩ := exists_perm_optimum (Costs.ofCells f)
  have hfeasible := optimum_feasible (Costs.ofCells f)
  have hlen := augmentations_optimum_le (Costs.ofCells f)
  have hrun := solveSquare_ofFn f rfl
  generalize optimum (Costs.ofCells f) = o at hred hadj hτ htight hfeasible hlen hrun
  have hsame : o.reduced (Costs.ofCells f) = ofFn n n f := by
    rw [Optimum.reduced, hred]
    simp only [Costs.ofCells, Cell.capped_toInt]
  refine ⟨_, _, hrun, by rw [reduced_ofOptimum_ofFn, hsame], ⟨o, τ, rfl, hτ, fun i => ?_⟩,
    fun h0 => ⟨o.augmentations, hlen, ?_⟩⟩
  · have h0 := htight i
    rwa [hred] at h0
  · have hcapped : o.cappedCount (Costs.ofCells f) = 0 := by
      rw [cappedCount_eq hfeasible, hred]
      by_contra hne
      obtain ⟨i, j, hij⟩ := beyondCells_ne_zero.1 hne
      exact absurd (Int64.toInt_le (f i j)) (Int.not_le.2 hij)
    have htext : ∀ s : String, s ++ toString " augmentations, " ++ toString 0 ++ toString " adjustments" =
        s ++ toString " augmentations, 0 adjustments" := fun s => by
      rw [String.append_assoc, String.append_assoc]
      rfl
    rw [report_ofFn f h0 hcapped, hsame, hadj, htext]

end Matrix

/-! ## The second solution -/

/-- The solution `s` of `m` is a fixed point: `again`, the solution of its reduced costs, has the same
reduced costs and an assignment that is of least cost for `m` too, and the report `log` on it tells of
no adjustment. -/
structure SquareSolution.Fixpoint (m : Matrix) (s again : SquareSolution) (log : List Log.Record) :
    Prop where
  reduced : again.reduced = s.reduced
  assigned : again.assignment.IsAssignment m.rows
  optimal : ∀ σ : Equiv.Perm (Fin m.rows),
    m.assignedTotal m.rows again.assignment ≤ ∑ i : Fin m.rows, m.entry i (σ i)
  report : m.rows ≠ 0 → ∃ k ≤ m.rows, log =
    [⟨.debug, s!"solving {m.rows}x{m.rows}: {m.rows - k} rows matched by reduction"⟩,
      ⟨.debug, s!"solved {m.rows}x{m.rows}: {k} augmentations, 0 adjustments"⟩,
      ⟨.trace, "final cost matrix:\n" ++ String.ofList s.reduced.text⟩]

namespace Matrix

/-- Solving the matrix that solving has left behind leaves it as it is. -/
theorem solveSquare_fixpoint (m : Matrix) (hw : m.WellFormed) (hs : m.rows = m.cols) :
    ∃ s log, m.solveSquare.run = ⟨.ok s, log⟩ ∧
      ∃ again log', s.reduced.solveSquare.run = ⟨.ok again, log'⟩ ∧
        SquareSolution.Fixpoint m s again log' := by
  obtain ⟨σ, -, hσ⟩ := exists_perm_optimum m.costs
  have hf := optimum_feasible m.costs
  have hmax : (0 : Int) < Int64.maxValue.toInt := by decide
  -- as cells the reduced costs are not negative either, and zero only where they are
  have hcell : ∀ i j, (Cell.capped ((optimum m.costs).potentials.reduced m.costs i j)).toInt =
      min ((optimum m.costs).potentials.reduced m.costs i j) Int64.maxValue.toInt := fun i j =>
    Cell.toInt_capped (hf i j)
  obtain ⟨again, log', hrun, hsame, ⟨o, τ, hassign, hτ, hzero⟩, hreport⟩ :=
    solveSquare_of_zeros (f := fun i j => Cell.capped ((optimum m.costs).potentials.reduced m.costs i j))
      (fun i j => by rw [hcell]; exact le_min (hf i j) hmax.le) (σ := σ)
      fun i => by rw [hcell, hσ, min_eq_left hmax.le]
  have hτzero : ∀ i, (optimum m.costs).potentials.reduced m.costs i (τ i) = 0 := fun i => by
    have h0 := hzero i
    rw [hcell] at h0
    have := hf i (τ i)
    omega
  have hred := SquareSolution.reduced_ofOptimum (o := optimum m.costs) hw hs
  refine ⟨_, _, solveSquare_run hs hw.complete, again, log', by rw [hred]; exact hrun,
    by rw [hred]; exact hsame, ?_, fun ρ => ?_, by rw [hred]; exact hreport⟩
  · rw [hassign]
    exact Optimum.assignment_isAssignment hτ
  · rw [hassign, Optimum.assignedTotal_assignment hτ]
    exact Potentials.sum_le_of_tight hf hτzero ρ

theorem solveSquare_fixpoint_extremes : extremes.WellFormed ∧ extremes.rows = extremes.cols ∧
    ∃ s log, extremes.solveSquare.run = ⟨.ok s, log⟩ ∧
      ∃ again log', s.reduced.solveSquare.run = ⟨.ok again, log'⟩ ∧
        SquareSolution.Fixpoint extremes s again log' :=
  ⟨by decide, rfl, solveSquare_fixpoint extremes (by decide) rfl⟩

end Matrix

end LinearAssignment
