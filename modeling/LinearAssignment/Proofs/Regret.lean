/-
Utilities by way of regrets. The regret of a utility is what it lacks to the largest one. To maximize
utilities and to minimize their regrets is one padded problem, solved once: the same square, the same
assignment and the same reduced costs. The two totals add up to the largest utility, once for each pair.
-/
import LinearAssignment.Proofs.Outcome

namespace LinearAssignment

/-! ## Regrets -/

namespace Matrix

variable {m : Matrix}

/-- What every cell lacks to the largest one, capped where that fits into no cell. -/
def regret (m : Matrix) : Matrix := { m with data := m.data.map fun c => Cell.capped (m.top - c.toInt) }

theorem slice_regret (i : Nat) :
    m.regret.slice i = (m.slice i).map fun c => Cell.capped (m.top - c.toInt) := by
  unfold slice regret
  rw [← Array.toList_map, Array.map_extract]

theorem fullRows_regret :
    m.regret.fullRows = m.fullRows.map fun row => row.map fun c => Cell.capped (m.top - c.toInt) := by
  have hcount : m.regret.fullRowCount = m.fullRowCount := by
    unfold fullRowCount regret
    rw [Array.size_map]
  unfold fullRows
  rw [hcount, List.map_map]
  exact List.map_congr_left fun i _ => slice_regret i

theorem WellFormed.regret (h : m.WellFormed) : m.regret.WellFormed :=
  (Array.size_map ..).trans h

theorem WellFormed.entry_regret (h : m.WellFormed) (hf : ¬ Objective.maximizeUtility.Overflows m)
    {i j : Nat} (hi : i < m.rows) (hj : j < m.cols) :
    m.regret.entry i j = m.top - m.entry i j := by
  obtain ⟨c, hc, hv⟩ := h.exists_cell hi hj
  have hmem : c ∈ m.data.toList := Array.mem_toList_iff.2 (Array.mem_of_getElem? hc)
  have hcost := Objective.toInt_capped_costOf hf hmem
  have hget : m.regret.data[i * m.cols + j]? = some (Cell.capped (m.top - c.toInt)) := by
    unfold Matrix.regret
    rw [Array.getElem?_map, hc]
    rfl
  rw [← hv]
  refine Eq.trans ?_ hcost
  show (m.regret.data.getD (i * m.cols + j) 0).toInt = _
  rw [Array.getD_eq_getD_getElem?, hget]
  rfl

end Matrix

/-! ## One padded problem -/

variable {m : Matrix} {p : Padded}

/-- Costs are spread as they like. -/
theorem not_overflows_minimizeCost (m : Matrix) : ¬ Objective.minimizeCost.Overflows m := by
  rintro ⟨h, -⟩
  cases h

theorem Padded.ofMatrix_regret (hm : m.WellFormed) (hf : ¬ Objective.maximizeUtility.Overflows m) :
    ofMatrix m.regret .minimizeCost = ofMatrix m .maximizeUtility := by
  have hcost : ∀ row : List Cell,
      row.map (fun c => Cell.capped (Objective.minimizeCost.costOf m.regret.top c.toInt)) = row := by
    intro row
    refine (List.map_congr_left fun c _ => ?_).trans (List.map_id row)
    exact Cell.capped_toInt c
  have hrows : costRows m.regret .minimizeCost = costRows m .maximizeUtility := by
    rw [costRows_ok hm.regret (not_overflows_minimizeCost _), costRows_ok hm hf]
    simp only [hcost, List.map_id', Matrix.fullRows_regret]
    rfl
  have hcomplete : m.regret.Complete ↔ m.Complete := iff_of_true hm.regret.complete hm.complete
  unfold ofMatrix
  rw [hrows]
  simp only [hcomplete]
  rfl

/-- The costs along a permutation are the regrets of its pairs, and what their utilities lack. -/
theorem Padded.StandsFor.pairSum_add {m' : Matrix} (h : p.StandsFor m .maximizeUtility)
    (h' : p.StandsFor m' .minimizeCost) (σ : Equiv.Perm (Fin p.matrix.rows)) :
    m.pairSum (insidePairs m.rows m.cols σ) + m'.pairSum (insidePairs m'.rows m'.cols σ) =
      (min m.rows m.cols : Nat) * m.top := by
  have hcosts := h.sum_entry σ
  rw [h'.sum_entry, costSum_minimize, costSum_maximize, length_insidePairs h.matrix_rows] at hcosts
  omega

/-- Two solutions record one optimum: their matrices and pairs are the same, and the totals add up. -/
theorem Solution.Records.mirrored {s t : Solution} {m' : Matrix} {σ τ : Equiv.Perm (Fin p.matrix.rows)}
    (h : s.Records m .maximizeUtility p σ) (h' : t.Records m' .minimizeCost p τ)
    (hr : m'.rows = m.rows) (hc : m'.cols = m.cols) :
    s.square = t.square ∧ s.assignment = t.assignment ∧ s.reduced = t.reduced ∧ s.pairs = t.pairs ∧
      s.total.toInt + t.total.toInt = (min m.rows m.cols : Nat) * m.top := by
  -- the matching of the optimum tells the permutation
  have hperm : σ = τ := by
    ext i
    have hi := h.colOf i
    rw [h'.colOf i] at hi
    exact congrArg Fin.val (Option.some.inj hi).symm
  subst hperm
  refine ⟨h.square.trans h'.square.symm, h.assignment.trans h'.assignment.symm,
    h.reduced.trans h'.reduced.symm, ?_, ?_⟩
  · rw [h.pairs, h'.pairs, hr, hc]
  · rw [h.total, h'.total, h.stands.pairSum_add h'.stands]

/-! ## Both objectives -/

/-- To maximize the utilities `m` and to minimize their regrets is the same problem. -/
structure Matrix.Mirrored (m : Matrix) : Prop where
  wellFormed : m.regret.WellFormed
  rows : m.regret.rows = m.rows
  cols : m.regret.cols = m.cols
  entry : ∀ i j, i < m.rows → j < m.cols → m.regret.entry i j = m.top - m.entry i j
  /-- Both are padded to one square, and both answers are assembled from its one solution. -/
  stages : ∃ p s log, Padded.ofMatrix m .maximizeUtility = .ok p ∧
    Padded.ofMatrix m.regret .minimizeCost = .ok p ∧ p.matrix.solveSquare.run = ⟨.ok s, log⟩ ∧
    (solve m .maximizeUtility).run.value =
      Solution.assemble m p s.assignment s.reduced .maximizeUtility ∧
    (solve m.regret .minimizeCost).run.value =
      Solution.assemble m.regret p s.assignment s.reduced .minimizeCost
  solutions : ∀ s t, (solve m .maximizeUtility).run.value = .ok s →
    (solve m.regret .minimizeCost).run.value = .ok t →
      s.square = t.square ∧ s.assignment = t.assignment ∧ s.reduced = t.reduced ∧ s.pairs = t.pairs ∧
        s.total.toInt + t.total.toInt = (min m.rows m.cols : Nat) * m.top

namespace Matrix

/-- Utilities of any shape are mirrored by their regrets, as long as each regret has a cell. -/
theorem mirrored_of_spread_le (m : Matrix) (hm : m.WellFormed) (he : min m.rows m.cols ≠ 0)
    (hs : m.top - m.bottom ≤ Int64.maxValue.toInt) : m.Mirrored := by
  have hf : ¬ Objective.maximizeUtility.Overflows m := fun h => Int.not_le.2 h.2 hs
  have hne : m.isEmpty = false := isEmpty_eq_false_iff.2 he
  obtain ⟨p, hp, hstands⟩ := Padded.ofMatrix_ok hm hne hf
  obtain ⟨p', hp', hstands'⟩ := Padded.ofMatrix_ok hm.regret hne (not_overflows_minimizeCost m.regret)
  -- both are padded to the same square, so it stands for both
  have hsame := hp'
  rw [Padded.ofMatrix_regret hm hf, hp] at hsame
  cases hsame
  have hsquare : p.matrix.rows = p.matrix.cols := hstands.matrix_rows.trans hstands.matrix_cols.symm
  have hcomplete := hstands.wellFormed.complete
  refine ⟨hm.regret, rfl, rfl, fun i j hi hj => hm.entry_regret hf hi hj,
    ⟨p, _, _, hp, hp', solveSquare_run hsquare hcomplete, solve_value_eq_assemble hp hsquare hcomplete,
      solve_value_eq_assemble hp' hsquare hcomplete⟩, fun s t hs ht => ?_⟩
  obtain ⟨σ, hrec⟩ := hstands.records hm hp hs
  obtain ⟨τ, hrec'⟩ := hstands'.records hm.regret hp' ht
  exact hrec.mirrored hrec' rfl rfl

/-- Utilities of two rows, spread as wide as their regrets have cells. -/
def wideUtilities : Matrix := ⟨2, 3, #[Int64.maxValue - 10, 5, 2, -7, -10, -6]⟩

theorem mirrored_wideUtilities : wideUtilities.WellFormed ∧
    min wideUtilities.rows wideUtilities.cols ≠ 0 ∧
      wideUtilities.top - wideUtilities.bottom ≤ Int64.maxValue.toInt ∧ wideUtilities.Mirrored := by
  have hs : wideUtilities.top - wideUtilities.bottom ≤ Int64.maxValue.toInt := by decide
  exact ⟨rfl, by decide, hs, mirrored_of_spread_le wideUtilities rfl (by decide) hs⟩

example : (solve wideUtilities .maximizeUtility).run.value.toOption.map Solution.total =
      some (Int64.maxValue - 16) ∧
    (solve wideUtilities.regret .minimizeCost).run.value.toOption.map Solution.total =
      some (Int64.maxValue - 4) := by
  decide +kernel

end Matrix

end LinearAssignment
