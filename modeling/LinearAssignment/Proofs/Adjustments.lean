/-
What the raises of a run come to. The sum of all potentials, that of the root included, is the same at
every point of a run, and only raises move the root. So what all raises amount to is what the value of
the potentials gains from the reduction to the end: the difference between the least cost and the bound
that the reduction gives. A run adjusts nothing exactly when that bound is the least cost. A search over
`k` matched rows has at most `k + 1` rounds, which bounds the number of adjustments.
-/
import LinearAssignment.Proofs.Fixpoint
import LinearAssignment.Proofs.Rounds
import Mathlib.Order.Bounds.Basic
import Mathlib.Tactic.Ring

namespace LinearAssignment

variable {n : Nat} {c : Costs n}

/-! ## The amounts of raises -/

/-- The amount of the next step, if that is a raise. -/
def Point.amount? : Point n → Option Int
  | grown _ _ _ t => t.tree.nearest?.map fun j => t.tree.slack.get j
  | _ => none

/-- Steps one after the other, with the amounts of the raises among them. -/
inductive Raises (c : Costs n) (p : Point n) : List Int → Point n → Prop
  | refl : Raises c p [] p
  | tail {q r : Point n} {l : List Int} (h : Raises c p l q) (hs : Step c q r) :
      Raises c p (l ++ q.amount?.toList) r

/-- Raises of the amounts `l` lead from `p` to `q`: they have taken their sum from the root, none has gone
down, and those that changed a potential have been counted. -/
structure Point.Raised (p : Point n) (l : List Int) (q : Point n) : Prop where
  root : q.potentials.root = p.potentials.root - l.sum
  nonneg : ∀ d ∈ l, 0 ≤ d
  adjustments : q.adjustments = p.adjustments + l.countP (0 < ·)

variable {p q r : Point n} {l l' : List Int}

theorem Point.Raised.trans (h : p.Raised l q) (h' : q.Raised l' r) : p.Raised (l ++ l') r := by
  refine ⟨?_, fun d hd => ?_, ?_⟩
  · rw [h'.root, h.root, List.sum_append]
    omega
  · rcases List.mem_append.1 hd with hd | hd
    · exact h.nonneg d hd
    · exact h'.nonneg d hd
  · rw [h'.adjustments, h.adjustments, List.countP_append, Nat.add_assoc]

theorem Step.raised (h : Step c p q) (hp : p.Sound c) : p.Raised p.amount?.toList q := by
  have hnone : ∀ {p q : Point n}, p.amount? = none → q.potentials.root = p.potentials.root →
      q.adjustments = p.adjustments → p.Raised p.amount?.toList q := by
    intro p q ha hr hadj
    rw [ha]
    exact ⟨hr.trans (Int.sub_zero _).symm, fun d hd => (by cases hd), hadj⟩
  cases h with
  | start => exact hnone rfl rfl rfl
  | @raise s root todo t j hj =>
    have ha : (Point.grown s root todo t).amount? = some (t.tree.slack.get j) := by
      show t.tree.nearest?.map _ = _
      rw [hj]
      rfl
    rw [ha]
    refine ⟨?_, fun d hd => ?_, ?_⟩
    · show t.potentials.root - t.tree.slack.get j = t.potentials.root - _
      rw [Option.toList_some, List.sum_singleton]
    · rw [List.mem_singleton.1 hd]
      exact hp.2.slack_nonneg (SearchTree.nearest?_some hj).1
    · show s.adjustments + (if 0 < t.tree.slack.get j then t.adjustments + 1 else t.adjustments) =
        s.adjustments + t.adjustments + _
      rw [Option.toList_some, List.countP_singleton]
      simp only [decide_eq_true_eq]
      split <;> omega
  | absorb hr => exact hnone rfl rfl rfl
  | flip hj => exact hnone rfl rfl rfl

theorem Raises.steps (h : Raises c p l q) : Steps c p q := by
  induction h with
  | refl => exact .refl
  | tail _ hs ih => exact ih.tail hs

theorem Raises.raised (h : Raises c p l q) (hp : p.Sound c) : p.Raised l q := by
  induction h with
  | refl => exact ⟨(Int.sub_zero _).symm, fun d hd => (by cases hd), rfl⟩
  | tail h hs ih => exact ih.trans (hs.raised (h.steps.sound hp))

theorem Steps.exists_raises (h : Steps c p q) : ∃ l, Raises c p l q := by
  induction h with
  | refl => exact ⟨[], .refl⟩
  | tail _ hs ih =>
    obtain ⟨l, hl⟩ := ih
    exact ⟨_, hl.tail hs⟩

/-- The raises of a whole run. -/
theorem exists_raises_optimum (c : Costs n) : ∃ (l : List Int) (last : Progress n),
    Raises c (Point.first c) l (.between last []) ∧ last.potentials = (optimum c).potentials ∧
      last.matching = (optimum c).matching ∧ last.adjustments = (optimum c).adjustments := by
  obtain ⟨l, hl⟩ := Steps.exists_raises (foldl_augment_steps _ (Progress.initial_awaits c))
  exact ⟨l, _, hl, rfl, rfl, rfl⟩

/-! ## The gain of the potentials -/

/-- The bound that reduction gives: the least costs of the rows, and the least of what then remains in
the columns. -/
def Costs.reductionBound (c : Costs n) : Int :=
  ∑ i, least (c i) + ∑ j, least fun i => c i j - least (c i)

theorem Potentials.value_initial (c : Costs n) : (initial c).value = c.reductionBound := by
  unfold value Costs.reductionBound
  simp only [initial_row, initial_col]

/-- A run that ends with the value of a permutation has raised by what that lies above the bound of the
reduction. -/
theorem Raises.sum_eq {last : Progress n} (h : Raises c (Point.first c) l (.between last []))
    {σ : Equiv.Perm (Fin n)} (hσ : ∀ i, last.potentials.reduced c i (σ i) = 0) :
    l.sum = ∑ i, c i (σ i) - c.reductionBound := by
  -- what the root has lost to raises, the rows and columns have gained
  have hroot : last.potentials.root = 0 - l.sum := (h.raised (Progress.initial_awaits c)).root
  have hvisited : (Point.between last []).Visited c := h.steps
  have htotal : last.potentials.total = (Potentials.initial c).value := hvisited.total
  rw [Potentials.total, Potentials.value_initial, ← Potentials.sum_eq_value hσ] at htotal
  omega

/-- Amounts of which none is negative have a positive one among them unless their sum is zero. -/
theorem countP_pos_eq_zero_iff (hl : ∀ d ∈ l, 0 ≤ d) : l.countP (0 < ·) = 0 ↔ l.sum = 0 := by
  induction l with
  | nil => exact iff_of_true rfl rfl
  | cons d l ih =>
    have hd := hl d List.mem_cons_self
    have hl' : ∀ x ∈ l, 0 ≤ x := fun x hx => hl x (List.mem_cons_of_mem d hx)
    have hsum : 0 ≤ l.sum := List.sum_nonneg hl'
    have hi := ih hl'
    rw [List.countP_cons, List.sum_cons]
    simp only [decide_eq_true_eq]
    split <;> omega

/-! ## The number of adjustments -/

namespace Matching

variable {m : Matching n}

theorem length_freeRows (m : Matching n) : m.freeRows.length = n - m.matchedRows.card := by
  have hfree : m.freeRows.toFinset = m.matchedRowsᶜ := by
    ext i
    rw [List.mem_toFinset, mem_freeRows, Finset.mem_compl]
  rw [← List.toFinset_card_of_nodup (Progress.nodup_freeRows m), hfree, Finset.card_compl, Fintype.card_fin]

/-- As many rows as columns are matched. -/
theorem Consistent.card_matchedRows (h : m.Consistent) : m.matchedRows.card = m.matchedCols.card := by
  choose f hf using fun i (hi : i ∈ m.matchedRows) => mem_matchedRows.1 hi
  refine Finset.card_bij f (fun i hi => ?_) (fun i hi k hk e => ?_) fun j hj => ?_
  · exact mem_matchedCols.2 ⟨i, (h.agree i _).1 (hf i hi)⟩
  · have hi' := (h.agree i _).1 (hf i hi)
    rw [e, (h.agree k _).1 (hf k hk)] at hi'
    exact (Option.some.inj hi').symm
  · obtain ⟨i, hi⟩ := mem_matchedCols.1 hj
    have hcol := (h.agree i j).2 hi
    have him := mem_matchedRows.2 ⟨j, hcol⟩
    exact ⟨i, him, Option.some.inj ((hf i him).symm.trans hcol)⟩

end Matching

theorem Search.Rounds.adjustments_le {m : Matching n} {t found : Search n} {l : List (Fin n)}
    (h : Rounds c m t l found) : found.adjustments ≤ t.adjustments + l.length := by
  have hraise : ∀ (t : Search n) (d : Int), (t.raise d).adjustments ≤ t.adjustments + 1 := by
    intro t d
    show (if 0 < d then t.adjustments + 1 else t.adjustments) ≤ _
    split <;> omega
  induction h with
  | last => exact hraise _ _
  | @more t found j r l hj hr h ih =>
    have hround := hraise t (t.tree.slack.get j)
    have habsorb : ((t.raise (t.tree.slack.get j)).absorb c j r).adjustments =
        (t.raise (t.tree.slack.get j)).adjustments := rfl
    rw [List.length_cons]
    omega

namespace Progress

variable {s : Progress n} {root : Fin n} {todo : List (Fin n)}

/-- A search over `k` matched rows adjusts at most `k + 1` times, and matches one row more. -/
theorem Awaits.augment_le (h : s.Awaits c (root :: todo)) :
    (s.augment c root).adjustments ≤ s.adjustments + (s.matching.matchedRows.card + 1) ∧
      (s.augment c root).matching.matchedRows.card = s.matching.matchedRows.card + 1 := by
  obtain ⟨j, found, hg, hf⟩ := h.sound.exists_found h.root_free
  have hinv := Search.start_inv h.seated ⟨h.sound.supports.feasible, h.sound.supports.tight⟩
  obtain ⟨l, found', hrounds⟩ := hinv.exists_rounds h.seated
  obtain ⟨j', -, hg'⟩ := hrounds.grow
  obtain ⟨rfl, rfl⟩ := Prod.mk.inj (Option.some.inj (hg.symm.trans hg'))
  constructor
  · have hadj : found.adjustments ≤ 0 + l.length := hrounds.adjustments_le
    have hlen : l.length ≤ s.matching.matchedCols.card + 1 := hrounds.length_le
    have hcard := h.sound.consistent.card_matchedRows
    rw [augment_eq_flip hg]
    show s.adjustments + found.adjustments ≤ _
    omega
  · rw [(h.sound.augment h.root_free hg hf).2.1, Finset.card_insert_of_notMem h.root_free]

/-- Searches from `a` rows over `k` matched rows adjust at most `a * k + a * (a + 1) / 2` times. -/
theorem two_mul_adjustments_le :
    ∀ (todo : List (Fin n)) {s : Progress n}, s.Awaits c todo →
      2 * (todo.foldl (augment c) s).adjustments ≤ 2 * s.adjustments +
        (2 * (todo.length * s.matching.matchedRows.card) + todo.length * (todo.length + 1))
  | [], s, _ => by simp
  | root :: todo, s, h => by
    obtain ⟨hadj, hcard⟩ := h.augment_le
    have hnext : (s.augment c root).Awaits c todo :=
      (augment_steps h).sound (p := .between s (root :: todo)) h
    have hrest := two_mul_adjustments_le todo hnext
    rw [hcard] at hrest
    -- the first search may adjust `k + 1` times, the others go over one matched row more
    have harith : 2 * (s.matching.matchedRows.card + 1) +
        (2 * (todo.length * (s.matching.matchedRows.card + 1)) + todo.length * (todo.length + 1)) =
          2 * ((todo.length + 1) * s.matching.matchedRows.card) +
            (todo.length + 1) * (todo.length + 1 + 1) := by ring
    rw [List.foldl_cons, List.length_cons]
    omega

end Progress

theorem adjustments_optimum_le (c : Costs n) :
    (optimum c).adjustments ≤
      (optimum c).augmentations * (Progress.initial c).matching.matchedRows.card +
        (optimum c).augmentations * ((optimum c).augmentations + 1) / 2 := by
  have h := Progress.two_mul_adjustments_le _ (Progress.initial_awaits c)
  have h' : 2 * (optimum c).adjustments ≤ 2 * 0 +
      (2 * ((optimum c).augmentations * (Progress.initial c).matching.matchedRows.card) +
        (optimum c).augmentations * ((optimum c).augmentations + 1)) := h
  omega

theorem matchedFirst_optimum (c : Costs n) :
    (optimum c).matchedFirst = (Progress.initial c).matching.matchedRows.card := by
  have hfree : (optimum c).augmentations = n - (Progress.initial c).matching.matchedRows.card :=
    Matching.length_freeRows _
  have hcard := Finset.card_le_univ (Progress.initial c).matching.matchedRows
  rw [Fintype.card_fin] at hcard
  unfold Optimum.matchedFirst
  omega

/-! ## The report -/

/-- The sums of entries along permutations. -/
def Matrix.permutationSums (m : Matrix) : Set Int :=
  { x | ∃ σ : Equiv.Perm (Fin m.rows), ∑ i : Fin m.rows, m.entry i (σ i) = x }

/-- The report `log` on the solution `s` of the square matrix `m` adds up: `K` rows are matched by
reduction, `A` searches follow, and of their raises, which amount to `amounts`, `D` change a potential. -/
structure SquareSolution.Accounted (m : Matrix) (s : SquareSolution) (log : List Log.Record)
    (K A D : Nat) (amounts : List Int) : Prop where
  reported : Log.ofLevel .debug log =
    [⟨.debug, s!"solving {m.rows}x{m.rows}: {K} rows matched by reduction"⟩,
      ⟨.debug, s!"solved {m.rows}x{m.rows}: {A} augmentations, {D} adjustments"⟩]
  matched : (Progress.initial m.costs).matching.matchedRows.card = K
  augmentations : K ≤ m.rows ∧ A = m.rows - K
  /-- The potentials add up to the same number from the reduction on. -/
  conserved : ∀ p : Point m.rows, p.Visited m.costs →
    p.potentials.total = (Potentials.initial m.costs).total
  /-- The run from the reduction to the optimum raises by these amounts. -/
  ends : ∃ last : Progress m.rows,
    Raises m.costs (Point.first m.costs) amounts (.between last []) ∧
      last.potentials = (optimum m.costs).potentials ∧ last.matching = (optimum m.costs).matching
  nonneg : ∀ d ∈ amounts, 0 ≤ d
  adjustments : D = amounts.countP (0 < ·)
  least : IsLeast m.permutationSums (m.assignedTotal m.rows s.assignment)
  sum : amounts.sum = m.assignedTotal m.rows s.assignment - m.costs.reductionBound
  eq_zero_iff : D = 0 ↔ m.costs.reductionBound = m.assignedTotal m.rows s.assignment
  le : D ≤ A * K + A * (A + 1) / 2

namespace Matrix

/-- The report on a square matrix adds up. -/
theorem solveSquare_accounted (m : Matrix) (hw : m.WellFormed) (hs : m.rows = m.cols)
    (h0 : 0 < m.rows) :
    ∃ s log K A D amounts, m.solveSquare.run = ⟨.ok s, log⟩ ∧
      SquareSolution.Accounted m s log K A D amounts := by
  obtain ⟨σ, hσ, htight⟩ := exists_perm_optimum m.costs
  obtain ⟨amounts, last, hraises, hpotentials, hmatching, hcount⟩ := exists_raises_optimum m.costs
  have hraised := hraises.raised (Progress.initial_awaits m.costs)
  have hassigned : m.assignedTotal m.rows (optimum m.costs).assignment = ∑ i, m.costs i (σ i) :=
    Optimum.assignedTotal_assignment hσ m
  have hsum := hraises.sum_eq (σ := σ) (hpotentials ▸ htight)
  have hadj : (optimum m.costs).adjustments = amounts.countP (0 < ·) :=
    hcount.symm.trans (hraised.adjustments.trans (Nat.zero_add _))
  have hK := matchedFirst_optimum m.costs
  have hA := augmentations_optimum_le m.costs
  refine ⟨_, _, (optimum m.costs).matchedFirst, (optimum m.costs).augmentations,
    (optimum m.costs).adjustments, amounts, solveSquare_run hs hw.complete, ?_, hK.symm, ?_, ?_,
    ⟨last, hraises, hpotentials, hmatching⟩, hraised.nonneg, hadj, ?_, ?_, ?_, ?_⟩
  · rw [SquareSolution.ofLevel_debug_report, if_neg h0.ne']
  · unfold Optimum.matchedFirst
    omega
  · intro p hp
    rw [hp.total, Potentials.total, show (Potentials.initial m.costs).root = 0 from rfl, Int.add_zero]
  · show IsLeast _ (m.assignedTotal m.rows (optimum m.costs).assignment)
    rw [hassigned]
    refine ⟨⟨σ, rfl⟩, ?_⟩
    rintro x ⟨τ, rfl⟩
    exact Potentials.sum_le_of_tight (optimum_feasible m.costs) htight τ
  · show amounts.sum = m.assignedTotal m.rows (optimum m.costs).assignment - _
    rw [hassigned, hsum]
  · show _ ↔ _ = m.assignedTotal m.rows (optimum m.costs).assignment
    rw [hadj, countP_pos_eq_zero_iff hraised.nonneg, hassigned, hsum, Int.sub_eq_zero, eq_comm]
  · rw [hK]
    exact adjustments_optimum_le m.costs

/-- On the multiplication table two rows are left over by the reduction. -/
theorem solveSquare_accounted_timesTable : timesTable.WellFormed ∧ timesTable.rows = timesTable.cols ∧
    0 < timesTable.rows ∧ ∃ s log K A D amounts, timesTable.solveSquare.run = ⟨.ok s, log⟩ ∧
      SquareSolution.Accounted timesTable s log K A D amounts :=
  ⟨by decide, rfl, by decide, solveSquare_accounted timesTable (by decide) rfl (by decide)⟩

end Matrix

end LinearAssignment
