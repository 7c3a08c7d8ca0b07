/-
When the reduced costs of a solved square matrix all fit into cells. No reduced cost is greater than
twice the spread of the cells, so matrices spread over at most half the range of the cells have
nothing capped. No greater spread is safe: when two rows contest a column, every certificate of the
optimum has a reduced cost of twice the spread.
-/
import LinearAssignment.Proofs.Bounds
import LinearAssignment.Proofs.Square

namespace LinearAssignment

/-- Solving the square matrix `m` caps nothing: each reduced cost has a cell and is written as that cell,
and there is no warning. -/
def Matrix.SolvedExactly (m : Matrix) : Prop :=
  ∃ s log, m.solveSquare.run = ⟨.ok s, log⟩ ∧
    (∀ i j : Fin m.rows, ∃ x : Cell, x.toInt = (optimum m.costs).potentials.reduced m.costs i j ∧
      s.reduced.cell i j = .ok x) ∧
    Log.upTo .warn log = []

/-! ## Spreads that are safe -/

theorem reduced_optimum_le {n : Nat} {c : Costs n} {lo hi : Int} (hc : ∀ i j, lo ≤ c i j ∧ c i j ≤ hi)
    (i j : Fin n) : (optimum c).potentials.reduced c i j ≤ 2 * (hi - lo) := by
  obtain ⟨last, hv, hp, -⟩ := exists_visited_optimum c
  rw [← hp]
  exact (hv.reduced_mem hc i j).2

namespace Matrix

theorem solvedExactly_of_reduced_le {m : Matrix} (hw : m.WellFormed) (hs : m.rows = m.cols)
    (hle : ∀ i j, (optimum m.costs).potentials.reduced m.costs i j ≤ Int64.maxValue.toInt) :
    m.SolvedExactly := by
  have hf := optimum_feasible m.costs
  refine ⟨_, _, solveSquare_run hs hw.complete, fun i j => ?_, ?_⟩
  · rw [SquareSolution.reduced_ofOptimum hw hs]
    obtain ⟨x, hx, hv⟩ := (wellFormed_ofFn _).exists_cell_eq (m := (optimum m.costs).reduced m.costs)
      i.isLt j.isLt
    refine ⟨x, ?_, hx⟩
    rw [hv]
    unfold Optimum.reduced
    rw [entry_ofFn, Cell.toInt_capped (hf i j), Int.min_eq_left (hle i j)]
  · have h0 : beyondCells ((optimum m.costs).potentials.reduced m.costs) = 0 := by
      by_contra h
      obtain ⟨i, j, hij⟩ := beyondCells_ne_zero.1 h
      have := hle i j
      omega
    rw [SquareSolution.upTo_warn_report, cappedCount_eq hf, h0, if_pos rfl]

theorem solvedExactly_of_spread {m : Matrix} (hw : m.WellFormed) (hs : m.rows = m.cols)
    (h : 2 * m.spread ≤ Int64.maxValue.toInt) : m.SolvedExactly :=
  solvedExactly_of_reduced_le hw hs fun i j =>
    Int.le_trans (reduced_optimum_le (hw.costs_mem hs) i j) h

theorem SolvedExactly.reduced_le {m : Matrix} (h : m.SolvedExactly) (i j : Fin m.rows) :
    (optimum m.costs).potentials.reduced m.costs i j ≤ Int64.maxValue.toInt := by
  obtain ⟨s, log, -, hcells, -⟩ := h
  obtain ⟨x, hx, -⟩ := hcells i j
  rw [← hx]
  exact Int64.toInt_le x

end Matrix

/-! ## A contested column -/

/-- The first row would pay `s` for the last column, and the two other rows pay `s` for any other. -/
def contestedCosts (s : Int) : Costs 3 := fun i j => if i = 0 ↔ j = 2 then s else 0

theorem le_sum_contestedCosts {s : Int} (hs : 0 ≤ s) (σ : Equiv.Perm (Fin 3)) :
    s ≤ ∑ i, contestedCosts s i (σ i) := by
  have hnn : ∀ i j, 0 ≤ contestedCosts s i j := by
    intro i j
    unfold contestedCosts
    split <;> omega
  have hpay : ∀ i, i ≠ 0 → σ i ≠ 2 → contestedCosts s i (σ i) = s := by
    intro i hi hj
    exact if_pos (iff_of_false hi hj)
  rw [Fin.sum_univ_three]
  have := hnn 0 (σ 0)
  by_cases h : σ 1 = 2
  · -- the last row does not get the last column
    have h2 : σ 2 ≠ 2 := fun e => absurd (σ.injective (h.trans e.symm)) (by decide)
    have := hnn 1 (σ 1)
    have := hpay 2 (by decide) h2
    omega
  · have := hnn 2 (σ 2)
    have := hpay 1 (by decide) h
    omega

/-- Whatever the potentials: if they are feasible and tight along a permutation, then the first row has a
reduced cost of `2 * s` in the last column. -/
theorem reduced_contestedCosts {s : Int} (hs : 0 ≤ s) {p : Potentials 3}
    (hf : p.Feasible (contestedCosts s)) {σ : Equiv.Perm (Fin 3)}
    (ht : ∀ i, p.reduced (contestedCosts s) i (σ i) = 0) :
    p.reduced (contestedCosts s) 0 2 = 2 * s := by
  have hvalue : s ≤ p.value := (Potentials.sum_eq_value ht) ▸ le_sum_contestedCosts hs σ
  -- two permutations cost `s` only, so their positions are tight, among them two of the three below
  have h00 := hf 0 0
  have h12 := hf 1 2
  have h21 := hf 2 1
  have h01 := hf 0 1
  have h10 := hf 1 0
  have h22 := hf 2 2
  simp only [Potentials.reduced, contestedCosts, Fin.isValue, Fin.reduceEq, Fin.one_eq_zero_iff,
    OfNat.ofNat_ne_one, iff_true, iff_false, not_true_eq_false, if_true, if_false]
    at h00 h12 h21 h01 h10 h22 ⊢
  simp only [Potentials.value, Fin.sum_univ_three] at hvalue
  omega

namespace Matrix

/-- A matrix whose first row would pay `a` for the last column, while the two other rows pay `a` for any
other. -/
def contested (a : Cell) : Matrix := .ofFn 3 3 fun i j => if i = 0 ↔ j = 2 then a else 0

theorem costs_contested (a : Cell) : (contested a).costs = contestedCosts a.toInt := by
  funext i j
  refine (entry_ofFn _ i j).trans ?_
  unfold contestedCosts
  split <;> rfl

theorem reduced_optimum_contested {a : Cell} (ha : 0 ≤ a.toInt) :
    (optimum (contestedCosts a.toInt)).potentials.reduced (contestedCosts a.toInt) 0 2 = 2 * a.toInt := by
  obtain ⟨σ, -, ht⟩ := exists_perm_optimum (contestedCosts a.toInt)
  exact reduced_contestedCosts ha (optimum_feasible _) ht

/-- A positive cell too large to be doubled makes solving the contested matrix cap a reduced cost. -/
theorem not_solvedExactly_contested {a : Cell} (ha : Int64.maxValue.toInt < 2 * a.toInt) :
    ¬ (contested a).SolvedExactly := by
  intro h
  have hpos : 0 ≤ a.toInt := by
    have : (0 : Int) ≤ Int64.maxValue.toInt := by decide
    omega
  have hle := h.reduced_le (0 : Fin 3) (2 : Fin 3)
  rw [costs_contested] at hle
  have hle' : 2 * a.toInt ≤ Int64.maxValue.toInt := (reduced_optimum_contested hpos) ▸ hle
  omega

/-- The least cell that is too large to be doubled. -/
def halfRange : Cell := 4611686018427387904

theorem spread_contested_halfRange : (contested halfRange).spread = halfRange.toInt := by decide +kernel

/-- Spreads of up to half the range of the cells are safe, and no greater ones: exactly then no square
matrix with such a spread has a reduced cost capped. -/
theorem solvedExactly_iff_two_mul_le (b : Int) :
    (∀ m : Matrix, m.WellFormed → m.rows = m.cols → m.spread ≤ b → m.SolvedExactly) ↔
      2 * b ≤ Int64.maxValue.toInt := by
  constructor
  · intro h
    by_contra hb
    have hmax : Int64.maxValue.toInt + 1 = 2 * halfRange.toInt := by decide
    refine not_solvedExactly_contested (a := halfRange) (by omega) (h _ (wellFormed_ofFn _) rfl ?_)
    rw [spread_contested_halfRange]
    omega
  · intro hb m hw hs hm
    exact solvedExactly_of_spread hw hs (by omega)

/-- A square matrix spread over less than the range of the cells, with a reduced cost that fits into no
cell. -/
theorem contested_halfRange_capped : (contested halfRange).WellFormed ∧
    (contested halfRange).rows = (contested halfRange).cols ∧
    (contested halfRange).spread ≤ Int64.maxValue.toInt ∧ ¬ (contested halfRange).SolvedExactly :=
  ⟨wellFormed_ofFn _, rfl, by rw [spread_contested_halfRange]; decide, not_solvedExactly_contested (by decide)⟩

end Matrix

end LinearAssignment
