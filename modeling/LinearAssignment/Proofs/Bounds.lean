/-
How large the numbers of a run become. A column without a row keeps the potential of the column
reduction, which is not negative, and while a search is under way there is such a column; so no row
potential rises above the costs of its row. With that, feasibility bounds the potentials of the
columns, tightness the reduced costs, and the balance of the potentials that of the root.
-/
import LinearAssignment.Proofs.Balance
import LinearAssignment.Proofs.Matrix
import LinearAssignment.Square

namespace LinearAssignment

variable {n : Nat} {c : Costs n}

/-! ## The direction of the potentials -/

/-- From `p` to `q` no row has gone down, and no column and not the root has gone up. -/
structure Potentials.Advances (p q : Potentials n) : Prop where
  row : ∀ i : Fin n, p.row.get i ≤ q.row.get i
  col : ∀ j : Fin n, q.col.get j ≤ p.col.get j
  root : q.root ≤ p.root

namespace Potentials

theorem Advances.refl (p : Potentials n) : p.Advances p :=
  ⟨fun _ => Int.le_refl _, fun _ => Int.le_refl _, Int.le_refl _⟩

theorem Advances.trans {p q r : Potentials n} (h : p.Advances q) (h' : q.Advances r) : p.Advances r :=
  ⟨fun i => Int.le_trans (h.row i) (h'.row i), fun j => Int.le_trans (h'.col j) (h.col j),
    Int.le_trans h'.root h.root⟩

theorem raise_advances (p : Potentials n) (t : SearchTree n) {d : Int} (hd : 0 ≤ d) :
    p.Advances (p.raise t d) := by
  refine ⟨fun i => ?_, fun j => ?_, ?_⟩
  · rw [raise_row]
    split <;> omega
  · rw [raise_col]
    split <;> omega
  · show p.root - d ≤ p.root
    omega

end Potentials

section
variable {p q : Point n}

theorem Step.advances (h : Step c p q) (hp : p.Sound c) : p.potentials.Advances q.potentials := by
  cases h with
  | start => exact .refl _
  | raise hj => exact Potentials.raise_advances _ _ (hp.2.slack_nonneg (SearchTree.nearest?_some hj).1)
  | absorb hr => exact .refl _
  | flip hj => exact .refl _

theorem Steps.advances (h : Steps c p q) (hp : p.Sound c) : p.potentials.Advances q.potentials := by
  induction h with
  | refl => exact .refl _
  | tail hsteps hstep ih => exact ih.trans (hstep.advances (Steps.sound hsteps hp))

theorem Point.Visited.advances (h : p.Visited c) : (Potentials.initial c).Advances p.potentials :=
  Steps.advances h (Progress.initial_awaits c)

end

/-! ## Unmatched columns -/

theorem least_nonneg {f : Fin n → Int} (i : Fin n) (h : ∀ k, 0 ≤ f k) : 0 ≤ least f := by
  obtain ⟨k, hk⟩ := exists_eq_least f i
  rw [← hk]
  exact h k

theorem Potentials.initial_col_nonneg (c : Costs n) (j : Fin n) : 0 ≤ (initial c).col.get j := by
  rw [initial_col]
  refine least_nonneg j fun k => ?_
  have := least_le (c k) j
  omega

/-- By feasibility a column with the potential of the column reduction keeps the potentials of all rows
down to its costs. -/
theorem row_le_of_initial {p : Potentials n} (hf : p.Feasible c) {k : Fin n}
    (hk : p.col.get k = (Potentials.initial c).col.get k) (i : Fin n) : p.row.get i ≤ c i k := by
  have hr := hf i k
  have h0 := Potentials.initial_col_nonneg c k
  unfold Potentials.reduced at hr
  omega

/-! ## Tree columns -/

/-- The columns of the tree have no slack left. -/
def SearchTree.Settled (t : SearchTree n) : Prop := ∀ j : Fin n, t.cols.get j = true → t.slack.get j = 0

namespace SearchTree

variable {t : SearchTree n}

theorem start_settled (root : Fin n) (f : Fin n → Int) : (start root f).Settled := by
  intro j hj
  simp [start] at hj

theorem Settled.lower (h : t.Settled) (d : Int) : (t.lower d).Settled := by
  intro j hj
  have hj' : t.cols.get j = true := hj
  rw [lower_slack, if_pos hj']
  exact h j hj'

theorem Settled.absorb (h : t.Settled) {j : Fin n} (h0 : t.slack.get j = 0) (r : Fin n)
    (f : Fin n → Int) : (t.absorb j r f).Settled := by
  intro k hk
  rw [absorb_slack, if_pos hk]
  rw [absorb_cols] at hk
  by_cases e : k = j
  · rw [e, h0]
  · rw [if_neg e] at hk
    exact h k hk

end SearchTree

/-! ## What a run keeps -/

/-- What a run keeps true besides soundness. -/
structure Point.Tame (c : Costs n) (p : Point n) : Prop where
  /-- A column without a row has the potential of the column reduction. -/
  unmatched : ∀ j : Fin n, p.matching.rowOf.get j = none →
    p.potentials.col.get j = (Potentials.initial c).col.get j
  /-- The potential of a row is not above all its costs. -/
  row_le : ∀ i : Fin n, ∃ j, p.potentials.row.get i ≤ c i j
  settled : ∀ t, p.tree? = some t → t.Settled

theorem Point.first_tame (c : Costs n) : (first c).Tame c := by
  refine ⟨fun _ _ => rfl, fun i => ?_, fun t ht => by cases ht⟩
  refine ⟨i, ?_⟩
  show (Potentials.initial c).row.get i ≤ c i i
  rw [Potentials.initial_row]
  exact least_le _ _

/-- An unmatched column is outside the tree, so a raise passes it by. -/
theorem Search.Inv.raise_col_of_free {m : Matching n} {t : Search n} (h : t.Inv c m) {k : Fin n}
    (hk : m.rowOf.get k = none) (d : Int) :
    (t.raise d).potentials.col.get k = t.potentials.col.get k := by
  show (t.potentials.raise t.tree d).col.get k = _
  rw [Potentials.raise_col, if_neg (by simp [h.outside_of_free hk])]

theorem Step.tame {p q : Point n} (h : Step c p q) (hp : p.Sound c) (ht : p.Tame c) : q.Tame c := by
  have hq := h.sound hp
  cases h with
  | start =>
    refine ⟨ht.unmatched, ht.row_le, fun u e => ?_⟩
    cases e
    exact SearchTree.start_settled _ _
  | @raise s root todo t j hj =>
    have hun : ∀ k : Fin n, s.matching.rowOf.get k = none →
        (t.raise (t.tree.slack.get j)).potentials.col.get k = (Potentials.initial c).col.get k := by
      intro k hk
      rw [hp.2.raise_col_of_free hk]
      exact ht.unmatched k hk
    -- some column is unmatched, and it bounds the potentials of all rows
    obtain ⟨k, hk⟩ := hp.1.seated.exists_free
    refine ⟨hun, fun i => ⟨k, row_le_of_initial hq.supports.feasible (hun k hk) i⟩, fun u e => ?_⟩
    cases e
    exact (ht.settled t.tree rfl).lower _
  | @absorb s root todo t j r hr =>
    refine ⟨ht.unmatched, ht.row_le, fun u e => ?_⟩
    cases e
    exact (ht.settled t.tree rfl).absorb hp.2.2.2 _ _
  | @flip s root todo t j hj =>
    obtain ⟨hs, hi, -, h0⟩ := hp
    obtain ⟨-, -, hcols⟩ := hs.sound.flip hs.root_free ⟨hi, hj, h0⟩
    refine ⟨fun k hk => ht.unmatched k ?_, ht.row_le, fun u e => by cases e⟩
    -- the flip leaves no column without a row that had one
    have hk' : k ∉ (s.flip root j t).matching.matchedCols := Matching.not_mem_matchedCols.2 hk
    rw [hcols, Finset.mem_insert, not_or] at hk'
    exact Matching.not_mem_matchedCols.1 hk'.2

theorem Point.Visited.tame {p : Point n} (h : p.Visited c) : p.Tame c := by
  induction h with
  | refl => exact first_tame c
  | tail hsteps hstep ih => exact hstep.tame (Point.Visited.sound hsteps) ih

/-! ## Bounds from the range of the costs -/

/-- The numbers at a point of a run over the costs `c`, which lie at most `S` apart. -/
structure Point.Bounded (c : Costs n) (S : Int) (p : Point n) : Prop where
  row_ge : ∀ i : Fin n, ∃ j, c i j ≤ p.potentials.row.get i
  row_le : ∀ i : Fin n, ∃ j, p.potentials.row.get i ≤ c i j
  col : ∀ j : Fin n, -S ≤ p.potentials.col.get j ∧ p.potentials.col.get j ≤ S
  root : -(n * S) ≤ p.potentials.root ∧ p.potentials.root ≤ 0
  reduced : ∀ i j, 0 ≤ p.potentials.reduced c i j ∧ p.potentials.reduced c i j ≤ 2 * S
  slack : ∀ t, p.tree? = some t → ∀ j : Fin n, 0 ≤ t.slack.get j ∧ t.slack.get j ≤ 2 * S
  unmatched : ∀ j : Fin n, p.matching.rowOf.get j = none →
    p.potentials.col.get j = (Potentials.initial c).col.get j

namespace Point.Visited

variable {p : Point n} {lo hi : Int}

theorem row_ge (h : p.Visited c) (i : Fin n) : ∃ j, c i j ≤ p.potentials.row.get i := by
  obtain ⟨j, hj⟩ := exists_eq_least (c i) i
  have := h.advances.row i
  rw [Potentials.initial_row] at this
  exact ⟨j, by omega⟩

/-- Potentials of rows are in the range of the costs. -/
theorem row_mem (h : p.Visited c) (hc : ∀ i j, lo ≤ c i j ∧ c i j ≤ hi) (i : Fin n) :
    lo ≤ p.potentials.row.get i ∧ p.potentials.row.get i ≤ hi := by
  obtain ⟨j, hj⟩ := h.row_ge i
  obtain ⟨k, hk⟩ := h.tame.row_le i
  have := hc i j
  have := hc i k
  omega

theorem initial_col_le (hc : ∀ i j, lo ≤ c i j ∧ c i j ≤ hi) (j : Fin n) :
    (Potentials.initial c).col.get j ≤ hi - lo := by
  obtain ⟨k, hk⟩ := exists_eq_least (c j) j
  have hle := least_le (fun i => c i j - least (c i)) j
  have := hc j j
  have := hc j k
  rw [Potentials.initial_col]
  omega

theorem col_mem (h : p.Visited c) (hc : ∀ i j, lo ≤ c i j ∧ c i j ≤ hi) (j : Fin n) :
    lo - hi ≤ p.potentials.col.get j ∧ p.potentials.col.get j ≤ hi - lo := by
  have hle := Int.le_trans (h.advances.col j) (initial_col_le hc j)
  refine ⟨?_, hle⟩
  cases hj : p.matching.rowOf.get j with
  | none =>
    have := Potentials.initial_col_nonneg c j
    have := hc j j
    rw [h.tame.unmatched j hj]
    omega
  | some i =>
    -- a matched column makes up for what its row lacks to the cost
    have ht := h.sound.supports.tight i j hj
    have := h.row_mem hc i
    have := hc i j
    unfold Potentials.reduced at ht
    omega

theorem reduced_mem (h : p.Visited c) (hc : ∀ i j, lo ≤ c i j ∧ c i j ≤ hi) (i j : Fin n) :
    0 ≤ p.potentials.reduced c i j ∧ p.potentials.reduced c i j ≤ 2 * (hi - lo) := by
  have hr := h.row_mem hc i
  have hij := hc i j
  refine ⟨h.sound.supports.feasible i j, ?_⟩
  unfold Potentials.reduced
  cases hj : p.matching.rowOf.get j with
  | none =>
    have := Potentials.initial_col_nonneg c j
    rw [h.tame.unmatched j hj]
    omega
  | some k =>
    have ht := h.sound.supports.tight k j hj
    have := h.row_mem hc k
    have := hc k j
    unfold Potentials.reduced at ht
    omega

/-- Outside the tree a slack is a reduced cost, inside it is zero. -/
theorem exists_slack_eq (h : p.Visited c) {t : SearchTree n} (ht : p.tree? = some t) (j : Fin n) :
    t.slack.get j = 0 ∨ ∃ i, t.slack.get j = p.potentials.reduced c i j := by
  by_cases hj : t.cols.get j = true
  · exact .inl (h.tame.settled t ht j hj)
  · obtain ⟨m, s, hs, rfl, hp⟩ : ∃ m s, Search.Inv c m s ∧ s.tree = t ∧ s.potentials = p.potentials := by
      have hsound := h.sound
      cases p with
      | between s todo => cases ht
      | grown s root todo u => cases ht; exact ⟨_, u, hsound.2, rfl, rfl⟩
      | raised s root todo u k => cases ht; exact ⟨_, u, hsound.2.1, rfl, rfl⟩
    obtain ⟨i, hi⟩ := hs.matched _ (hs.via j)
    have hr := hs.reached i j hi
    rw [if_neg hj, hp] at hr
    exact .inr ⟨i, hr.symm⟩

/-! ## The root -/

theorem le_initial_value (c : Costs n) : ∑ i, least (c i) ≤ (Potentials.initial c).value := by
  have hn : 0 ≤ ∑ j, (Potentials.initial c).col.get j :=
    Finset.sum_nonneg fun j _ => Potentials.initial_col_nonneg c j
  unfold Potentials.value
  simp only [Potentials.initial_row]
  omega

/-- What the root has lost, the value of the potentials has gained, and no permutation costs less. -/
theorem root_ge (h : p.Visited c) (hc : ∀ i j, lo ≤ c i j ∧ c i j ≤ hi) :
    -(n * (hi - lo)) ≤ p.potentials.root := by
  have htotal := h.total
  have hle := h.sound.supports.feasible.value_le (Equiv.refl (Fin n))
  have hge := le_initial_value c
  have hterm : ∀ i ∈ Finset.univ, lo - hi ≤ least (c i) - c i i := by
    intro i _
    obtain ⟨k, hk⟩ := exists_eq_least (c i) i
    have := hc i k
    have := hc i i
    omega
  have hsum := Finset.card_nsmul_le_sum _ _ _ hterm
  rw [Finset.card_univ, Fintype.card_fin, nsmul_eq_mul, Finset.sum_sub_distrib] at hsum
  have hneg : -((n : Int) * (hi - lo)) = n * (lo - hi) := by rw [← Int.mul_neg, Int.neg_sub]
  simp only [Equiv.refl_apply] at hle
  unfold Potentials.total at htotal
  omega

theorem bounded (h : p.Visited c) (hc : ∀ i j, lo ≤ c i j ∧ c i j ≤ hi) : p.Bounded c (hi - lo) := by
  refine ⟨h.row_ge, h.tame.row_le, fun j => ?_, ⟨h.root_ge hc, h.advances.root⟩, h.reduced_mem hc,
    fun t ht j => ?_, h.tame.unmatched⟩
  · have := h.col_mem hc j
    omega
  · rcases h.exists_slack_eq ht j with h0 | ⟨i, hi⟩
    · have := hc j j
      omega
    · rw [hi]
      exact h.reduced_mem hc i j

end Point.Visited

/-! ## Machine width -/

/-- A number that a run holds at a point, or meets there on the way to a reduced cost. -/
inductive Point.Number (c : Costs n) (p : Point n) : Int → Prop
  | row (i : Fin n) : Number c p (p.potentials.row.get i)
  | col (j : Fin n) : Number c p (p.potentials.col.get j)
  | root : Number c p p.potentials.root
  | rest (i j : Fin n) : Number c p (c i j - p.potentials.row.get i)
  | reduced (i j : Fin n) : Number c p (p.potentials.reduced c i j)
  | slack {t : SearchTree n} (ht : p.tree? = some t) (j : Fin n) : Number c p (t.slack.get j)

/-- A signed integer of 128 bits can hold `x`. -/
def Fits128 (x : Int) : Prop := -2 ^ 127 ≤ x ∧ x < 2 ^ 127

theorem fits128_of_le {x b : Int} (h : -b ≤ x ∧ x ≤ b) (hb : b ≤ 2 ^ 96) : Fits128 x := by
  unfold Fits128
  omega

/-- With fewer than `2 ^ 64` cells, spread over less than `2 ^ 64`, no number of a run gets beyond
`2 ^ 96`. -/
theorem Point.Visited.fits128 {p : Point n} (h : p.Visited c) {lo hi : Int}
    (hc : ∀ i j, lo ≤ c i j ∧ c i j ≤ hi) (hlo : -2 ^ 63 ≤ lo) (hhi : hi < 2 ^ 63) (hn : n * n < 2 ^ 64)
    {x : Int} (hx : p.Number c x) : Fits128 x := by
  have hb := h.bounded hc
  cases hx with
  | row i =>
    have := h.row_mem hc i
    exact fits128_of_le (b := 2 ^ 63) (by omega) (by norm_num)
  | col j => exact fits128_of_le (hb.col j) (by omega)
  | root =>
    have hside : n < 2 ^ 32 := lt_of_mul_self_lt_mul_self₀ (Nat.zero_le _) (by omega)
    have hmul : (n : Int) * (hi - lo) ≤ n * 2 ^ 64 :=
      Int.mul_le_mul_of_nonneg_left (by omega) (Int.natCast_nonneg n)
    have := hb.root
    exact fits128_of_le (b := 2 ^ 96) (by omega) (Int.le_refl _)
  | rest i j =>
    have := h.row_mem hc i
    have := hc i j
    exact fits128_of_le (b := 2 ^ 64) (by omega) (by norm_num)
  | reduced i j =>
    have := hb.reduced i j
    exact fits128_of_le (b := 2 * (hi - lo)) (by omega) (by omega)
  | slack ht j =>
    have := hb.slack _ ht j
    exact fits128_of_le (b := 2 * (hi - lo)) (by omega) (by omega)

/-! ## Square matrices -/

namespace Matrix

variable {m : Matrix}

theorem Complete.costs_mem (hm : m.Complete) (hs : m.rows = m.cols) (i j : Fin m.rows) :
    m.bottom ≤ m.costs i j ∧ m.costs i j ≤ m.top :=
  hm.entry_mem i.isLt (hs ▸ j.isLt)

theorem WellFormed.costs_mem (hw : m.WellFormed) (hs : m.rows = m.cols) (i j : Fin m.rows) :
    m.bottom ≤ m.costs i j ∧ m.costs i j ≤ m.top := hw.complete.costs_mem hs i j

/-- How the numbers behave when the square matrix `m` is solved: they stay within bounds that the spread
of the cells sets, and within 128 bits; potentials of rows only rise and those of columns only sink.
The run meant here ends with the potentials and the matching of the optimum. -/
structure SteadyRun (m : Matrix) : Prop where
  bounded : ∀ p : Point m.rows, p.Visited m.costs → p.Bounded m.costs m.spread
  fits : ∀ p : Point m.rows, p.Visited m.costs → ∀ x, p.Number m.costs x → Fits128 x
  advances : ∀ p q : Point m.rows, p.Visited m.costs → Steps m.costs p q →
    p.potentials.Advances q.potentials
  ends : ∃ last : Progress m.rows, (Point.between last []).Visited m.costs ∧
    last.potentials = (optimum m.costs).potentials ∧ last.matching = (optimum m.costs).matching

/-- No number of a run on a square matrix outgrows its bounds. -/
theorem steadyRun_of_square (m : Matrix) (hw : m.WellFormed) (hs : m.rows = m.cols)
    (hn : m.rows * m.rows < 2 ^ 64) : m.SteadyRun := by
  have hc := hw.costs_mem hs
  have hlo : -2 ^ 63 ≤ m.bottom := Int64.le_toInt _
  have hhi : m.top < 2 ^ 63 := Int64.toInt_lt _
  exact ⟨fun p hp => hp.bounded hc, fun p hp x hx => hp.fits128 hc hlo hhi hn hx,
    fun p q hp hq => Steps.advances hq hp.sound, exists_visited_optimum m.costs⟩

/-- Cells of both extremes, with two rows that want the same column. -/
def contestedExtremes : Matrix :=
  ⟨2, 2, #[Int64.minValue, Int64.maxValue, Int64.minValue, Int64.maxValue]⟩

theorem steadyRun_contestedExtremes : contestedExtremes.WellFormed ∧
    contestedExtremes.rows = contestedExtremes.cols ∧
    contestedExtremes.rows * contestedExtremes.rows < 2 ^ 64 ∧ contestedExtremes.SteadyRun :=
  ⟨by decide, rfl, by decide, steadyRun_of_square contestedExtremes (by decide) rfl (by decide)⟩

/-- The multiplication table, of which the greedy matching gets the first row only. -/
def timesTable : Matrix := ⟨3, 3, #[1, 2, 3, 2, 4, 6, 3, 6, 9]⟩

/-- There are searches in the run on the multiplication table. -/
theorem exists_visited_timesTable : ∃ (s : Progress timesTable.rows) (root : Fin timesTable.rows)
    (todo : List (Fin timesTable.rows)), (Point.between s (root :: todo)).Visited timesTable.costs := by
  have hfree : (Progress.initial timesTable.costs).matching.freeRows ≠ [] := by decide
  obtain ⟨root, todo, h⟩ := List.exists_cons_of_ne_nil hfree
  refine ⟨Progress.initial timesTable.costs, root, todo, ?_⟩
  rw [← h]
  exact .refl

end Matrix

end LinearAssignment
