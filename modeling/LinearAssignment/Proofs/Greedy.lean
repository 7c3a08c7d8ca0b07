/-
The start of the method. Reduction leaves no reduced cost negative, and a zero in every row and in every
column: where a row has its least cost, its column has nothing left to take off. The greedy matching then
gives each row in turn the lowest of its zero columns that no earlier row holds. So no zero is left with
both its row and its column free, and zeros in distinct rows and columns are at most twice as many as the
rows that are matched.
-/
import LinearAssignment.Proofs.Adjustments
import LinearAssignment.Proofs.Indexed.Reduce

namespace LinearAssignment

variable {n : Nat}

/-! ## Reduction -/

namespace Potentials

variable (c : Costs n)

theorem exists_reduced_row_eq_zero (i : Fin n) : ∃ j, (initial c).reduced c i j = 0 := by
  obtain ⟨j, hj⟩ := exists_eq_least (c i) i
  -- the row needs nothing more at its least cost, and no column takes off less than nothing
  have hle := least_le (fun k => c k j - least (c k)) i
  have h0 := initial_col_nonneg c j
  rw [initial_col] at h0
  refine ⟨j, ?_⟩
  rw [reduced_initial]
  omega

theorem exists_reduced_col_eq_zero (j : Fin n) : ∃ i, (initial c).reduced c i j = 0 := by
  obtain ⟨i, hi⟩ := exists_eq_least (fun k => c k j - least (c k)) j
  refine ⟨i, ?_⟩
  rw [reduced_initial]
  omega

end Potentials

/-! ## Maximal matchings -/

namespace Matching

variable {allowed : Fin n → Fin n → Bool} {b : Matching n}

/-- No admitted position has both its row and its column free. -/
theorem greedy_maximal {i j : Fin n} (h : allowed i j = true) :
    i ∈ (greedy allowed).matchedRows ∨ j ∈ (greedy allowed).matchedCols := by
  by_contra hfree
  obtain ⟨hi, hj⟩ := not_or.1 hfree
  have hclosed := (greedy_colOf_eq_none_iff allowed i).1 (not_mem_matchedRows.1 hi)
  have hopen : j ∈ (greedy allowed).openCols allowed i := by
    refine ⟨h, fun k _ hk => hj (mem_matchedCols.2 ⟨k, ?_⟩)⟩
    exact ((greedy_admitted allowed).consistent.agree k j).1 hk
  rw [hclosed] at hopen
  cases hopen

/-- Positions in distinct rows and columns, each with its row or its column matched, are at most twice as
many as the matched rows. -/
theorem Consistent.card_le_two_mul (hb : b.Consistent) {Z : Finset (Fin n × Fin n)}
    (hrow : Set.InjOn Prod.fst (Z : Set (Fin n × Fin n)))
    (hcol : Set.InjOn Prod.snd (Z : Set (Fin n × Fin n)))
    (hZ : ∀ z ∈ Z, z.1 ∈ b.matchedRows ∨ z.2 ∈ b.matchedCols) : Z.card ≤ 2 * b.matchedRows.card := by
  have hcover : Z ⊆ Z.filter (·.1 ∈ b.matchedRows) ∪ Z.filter (·.2 ∈ b.matchedCols) := by
    intro z hz
    rw [Finset.mem_union, Finset.mem_filter, Finset.mem_filter]
    rcases hZ z hz with h | h
    · exact .inl ⟨hz, h⟩
    · exact .inr ⟨hz, h⟩
  have hrows : (Z.filter (·.1 ∈ b.matchedRows)).card ≤ b.matchedRows.card :=
    Finset.card_le_card_of_injOn Prod.fst (fun z hz => (Finset.mem_filter.1 hz).2)
      (hrow.mono (Finset.filter_subset _ _))
  have hcols : (Z.filter (·.2 ∈ b.matchedCols)).card ≤ b.matchedCols.card :=
    Finset.card_le_card_of_injOn Prod.snd (fun z hz => (Finset.mem_filter.1 hz).2)
      (hcol.mono (Finset.filter_subset _ _))
  calc Z.card
      ≤ (Z.filter (·.1 ∈ b.matchedRows) ∪ Z.filter (·.2 ∈ b.matchedCols)).card :=
        Finset.card_le_card hcover
    _ ≤ (Z.filter (·.1 ∈ b.matchedRows)).card + (Z.filter (·.2 ∈ b.matchedCols)).card :=
        Finset.card_union_le _ _
    _ ≤ b.matchedRows.card + b.matchedCols.card := Nat.add_le_add hrows hcols
    _ = 2 * b.matchedRows.card := by rw [← hb.card_matchedRows, Nat.two_mul]

end Matching

/-! ## The first state -/

/-- The state `s` begins the method on the costs `c`: reduced costs with zeros in all rows and columns, and
a greedy matching of `K` rows among the zeros. -/
structure Progress.Begins (c : Costs n) (s : Progress n) (K : Nat) : Prop where
  nonneg : ∀ i j, 0 ≤ s.potentials.reduced c i j
  row_zero : ∀ i, ∃ j, s.potentials.reduced c i j = 0
  col_zero : ∀ j, ∃ i, s.potentials.reduced c i j = 0
  agree : ∀ i j : Fin n, s.matching.colOf.get i = some j ↔ s.matching.rowOf.get j = some i
  root_empty : s.matching.rootRow = none
  /-- A row holds the lowest zero column that no earlier row holds. -/
  holds : ∀ i j : Fin n, s.matching.colOf.get i = some j ↔
    IsLeast {j | s.potentials.reduced c i j = 0 ∧ ∀ k < i, s.matching.colOf.get k ≠ some j} j
  left_over : ∀ i : Fin n, s.matching.colOf.get i = none ↔
    ∀ j, s.potentials.reduced c i j = 0 → ∃ k < i, s.matching.colOf.get k = some j
  maximal : ∀ i j : Fin n, s.potentials.reduced c i j = 0 →
    s.matching.colOf.get i ≠ none ∨ s.matching.rowOf.get j ≠ none
  matched : s.matching.matchedRows.card = K
  half : ∀ Z : Finset (Fin n × Fin n), (∀ z ∈ Z, s.potentials.reduced c z.1 z.2 = 0) →
    Set.InjOn Prod.fst (Z : Set (Fin n × Fin n)) → Set.InjOn Prod.snd (Z : Set (Fin n × Fin n)) →
      Z.card ≤ 2 * K

namespace Progress

variable (c : Costs n)

/-- The zero columns of a row that no earlier row holds. -/
theorem openCols_initial (i : Fin n) :
    (initial c).matching.openCols ((Potentials.initial c).isTight c) i =
      {j | (initial c).potentials.reduced c i j = 0 ∧
        ∀ k < i, (initial c).matching.colOf.get k ≠ some j} := by
  ext j
  exact and_congr_left' Potentials.isTight_iff

theorem initial_holds (i j : Fin n) : (initial c).matching.colOf.get i = some j ↔
    IsLeast {j | (initial c).potentials.reduced c i j = 0 ∧
      ∀ k < i, (initial c).matching.colOf.get k ≠ some j} j := by
  rw [← openCols_initial]
  exact Matching.greedy_colOf_eq_some_iff _ i j

theorem initial_left_over (i : Fin n) : (initial c).matching.colOf.get i = none ↔
    ∀ j, (initial c).potentials.reduced c i j = 0 →
      ∃ k < i, (initial c).matching.colOf.get k = some j := by
  have hnone : (initial c).matching.colOf.get i = none ↔
      (initial c).matching.openCols ((Potentials.initial c).isTight c) i = ∅ :=
    Matching.greedy_colOf_eq_none_iff _ i
  rw [hnone, openCols_initial, Set.eq_empty_iff_forall_notMem]
  refine forall_congr' fun j => ?_
  simp

theorem initial_maximal {i j : Fin n} (h : (initial c).potentials.reduced c i j = 0) :
    i ∈ (initial c).matching.matchedRows ∨ j ∈ (initial c).matching.matchedCols :=
  Matching.greedy_maximal (Potentials.isTight_iff.2 h)

end Progress

/-- Reducing a square matrix and trying all its positions for zeros gives the state that begins the method,
with as many rows matched as the solver reports. -/
theorem Matrix.begins_of_square (m : Matrix) (hw : m.WellFormed) (hs : m.rows = m.cols) :
    ∃ s : Progress m.rows, Indexed.reduce m = some (.of s.potentials .empty) ∧
      Indexed.matchZeros m (.of s.potentials .empty) = some (.of s.potentials s.matching) ∧
      s.Begins m.costs (optimum m.costs).matchedFirst := by
  have hsound := Progress.initial_sound m.costs
  have hK := matchedFirst_optimum m.costs
  refine ⟨.initial m.costs, Indexed.reduce_of hw.complete hs, Indexed.matchZeros_of hw.complete hs, ?_⟩
  constructor
  · exact hsound.supports.feasible
  · exact Potentials.exists_reduced_row_eq_zero m.costs
  · exact Potentials.exists_reduced_col_eq_zero m.costs
  · exact hsound.consistent.agree
  · exact hsound.consistent.root
  · exact Progress.initial_holds m.costs
  · exact Progress.initial_left_over m.costs
  · intro i j hij
    rcases Progress.initial_maximal m.costs hij with hi | hj
    · exact .inl (mt Matching.not_mem_matchedRows.2 (not_not.2 hi))
    · exact .inr (mt Matching.not_mem_matchedCols.2 (not_not.2 hj))
  · exact hK.symm
  · intro Z hzero hrow hcol
    rw [hK]
    exact hsound.consistent.card_le_two_mul hrow hcol fun z hz =>
      Progress.initial_maximal m.costs (hzero z hz)

/-- The first row takes the only zero of the second one, so one row is matched where two could be. -/
def greedyTrap : Matrix := ⟨2, 2, #[0, 0, 0, 1]⟩

theorem Matrix.begins_greedyTrap : greedyTrap.WellFormed ∧ greedyTrap.rows = greedyTrap.cols ∧
    ∃ s : Progress greedyTrap.rows, Indexed.reduce greedyTrap = some (.of s.potentials .empty) ∧
      Indexed.matchZeros greedyTrap (.of s.potentials .empty) = some (.of s.potentials s.matching) ∧
      s.Begins greedyTrap.costs (optimum greedyTrap.costs).matchedFirst :=
  ⟨by decide, rfl, begins_of_square greedyTrap (by decide) rfl⟩

/-- Half of the largest number of zeros in distinct rows and columns, which is 2. -/
example : (Progress.initial greedyTrap.costs).matching.matchedRows.card = 1 := by decide

end LinearAssignment
