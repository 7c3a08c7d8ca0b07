/-
Totals of arbitrary assignments. An assignment with at most one 1 in each row selects a set of positions,
whatever its other cells are. Row after row, assembly has added exactly the selected entries of the rows
so far, and its pairs are their positions; so the order of the additions does not matter, and neither does
a running total outside the range of the cells. Only the last one has to fit.
-/
import LinearAssignment.Proofs.Bounds
import LinearAssignment.Proofs.Indexed.Tally

namespace LinearAssignment

variable {m a : Matrix} {p : Padded} {k : Nat} {t : Tally}

/-! ## Selected positions -/

/-- No row has a second 1. -/
def Matrix.OnePerRow (a : Matrix) : Prop :=
  ∀ i < a.rows, ∀ j < a.cols, ∀ j' < a.cols, a.entry i j = 1 → a.entry i j' = 1 → j = j'

namespace Padded

/-- The positions of the matrix before padding in the first `k` rows of `a` that hold a 1. -/
def ones (p : Padded) (a : Matrix) (k : Nat) : Finset (Nat × Nat) :=
  (Finset.range k ×ˢ Finset.range a.cols).filter fun q => a.entry q.1 q.2 = 1 ∧ p.isReal q.1 q.2

/-- The sum of the entries of `m` at the selected positions of the first `k` rows. -/
def onesSum (p : Padded) (m a : Matrix) (k : Nat) : Int := ∑ q ∈ p.ones a k, m.entry q.1 q.2

theorem mem_ones {q : Nat × Nat} : q ∈ p.ones a k ↔
    q.1 < k ∧ q.2 < a.cols ∧ a.entry q.1 q.2 = 1 ∧ q.1 < p.rows ∧ q.2 < p.cols := by
  simp [ones, isReal, and_assoc]

end Padded

/-- The first 1 of a slice is the only one of its row. -/
theorem Matrix.WellFormed.idxOf?_slice_eq_some_iff (ha : a.WellFormed) (hone : a.OnePerRow) {i j : Nat}
    (hi : i < a.rows) : (a.slice i).idxOf? 1 = some j ↔ j < a.cols ∧ a.entry i j = 1 := by
  constructor
  · intro h
    obtain ⟨hlt, hget, -⟩ := List.idxOf?_eq_some_iff.1 h
    have hj : j < a.cols := by
      by_contra hge
      have hnone := Matrix.getElem?_slice_of_le (m := a) i (Nat.le_of_not_lt hge)
      rw [List.getElem?_eq_getElem hlt] at hnone
      cases hnone
    obtain ⟨c, hc, hv⟩ := ha.exists_cell hi hj
    rw [← Matrix.getElem?_slice i hj, List.getElem?_eq_getElem hlt, hget, Option.some.injEq] at hc
    refine ⟨hj, ?_⟩
    rw [← hv, ← hc]
    rfl
  · rintro ⟨hj, h1⟩
    refine ha.idxOf?_slice hi hj h1 fun l hl h => ?_
    exact absurd (hone i hi l (by omega) j hj h h1) (Nat.ne_of_lt hl)

namespace Padded

theorem pair?_eq_some_iff (ha : a.WellFormed) (hone : a.OnePerRow) (hk : k < a.rows) {q : Nat × Nat} :
    p.pair? a k = some q ↔ q.1 = k ∧ q ∈ p.ones a (k + 1) := by
  rw [pair?, Option.bind_eq_some_iff, mem_ones]
  constructor
  · rintro ⟨j, hj, hq⟩
    obtain ⟨hcol, h1⟩ := (ha.idxOf?_slice_eq_some_iff hone hk).1 hj
    split at hq
    · next hreal =>
      cases hq
      have hin : k < p.rows ∧ j < p.cols := by simpa [isReal] using hreal
      exact ⟨rfl, Nat.lt_succ_self k, hcol, h1, hin.1, hin.2⟩
    · cases hq
  · rintro ⟨rfl, -, hcol, h1, hr, hc⟩
    refine ⟨q.2, (ha.idxOf?_slice_eq_some_iff hone hk).2 ⟨hcol, h1⟩, ?_⟩
    rw [if_pos (by simp [isReal, hr, hc])]

/-- A row adds the position it picks to those of the rows before it. -/
theorem ones_succ (ha : a.WellFormed) (hone : a.OnePerRow) (hk : k < a.rows) :
    p.ones a (k + 1) = p.ones a k ∪ (p.pair? a k).toFinset := by
  ext q
  rw [Finset.mem_union, Option.mem_toFinset, Option.mem_def, pair?_eq_some_iff ha hone hk]
  simp only [mem_ones]
  constructor
  · rintro ⟨hlt, hrest⟩
    rcases Nat.lt_succ_iff_lt_or_eq.1 hlt with h | h
    · exact .inl ⟨h, hrest⟩
    · exact .inr ⟨h, hlt, hrest⟩
  · rintro (⟨hlt, hrest⟩ | ⟨-, h⟩)
    · exact ⟨Nat.lt_succ_of_lt hlt, hrest⟩
    · exact h

theorem onesSum_succ (ha : a.WellFormed) (hone : a.OnePerRow) (hk : k < a.rows) :
    p.onesSum m a (k + 1) = p.onesSum m a k + ∑ q ∈ (p.pair? a k).toFinset, m.entry q.1 q.2 := by
  have hdis : Disjoint (p.ones a k) (p.pair? a k).toFinset := by
    refine Finset.disjoint_left.2 fun q hq hq' => ?_
    rw [Option.mem_toFinset, Option.mem_def, pair?_eq_some_iff ha hone hk] at hq'
    have := (mem_ones.1 hq).1
    omega
  rw [onesSum, ones_succ ha hone hk, Finset.sum_union hdis]
  rfl

end Padded

/-! ## Row after row -/

namespace Tally

/-- The tally of the first `k` rows: the exact sum of the selected entries, and their positions by row. -/
structure Counts (t : Tally) (m a : Matrix) (p : Padded) (k : Nat) : Prop where
  total : t.total = p.onesSum m a k
  mem_iff : ∀ q, q ∈ t.pairs ↔ q ∈ p.ones a k
  ascending : t.pairs.Pairwise fun x y => x.1 < y.1
  bounded : -(k * 2 ^ 63) ≤ t.total ∧ t.total ≤ k * 2 ^ 63

theorem counts_zero : Counts ⟨0, []⟩ m a p 0 := by
  constructor
  · simp [Padded.onesSum, Padded.ones]
  · simp [Padded.ones]
  · exact .nil
  · simp

theorem entry_bounded (m : Matrix) (i j : Nat) : -2 ^ 63 ≤ m.entry i j ∧ m.entry i j < 2 ^ 63 :=
  ⟨Int64.le_toInt _, Int64.toInt_lt _⟩

/-- One more row keeps the count, whether it selects a position or not. -/
theorem Counts.add (h : t.Counts m a p k) (ha : a.WellFormed) (hone : a.OnePerRow) (hk : k < a.rows)
    {found : Option Solution.Pick} (hf : found.map (fun x => (x.row, x.col)) = p.pair? a k)
    (hcell : ∀ x ∈ found, x.cell.toInt = m.entry x.row x.col) :
    (t.add found).Counts m a p (k + 1) := by
  have hones := Padded.ones_succ (p := p) ha hone hk
  have hsum := Padded.onesSum_succ (p := p) (m := m) ha hone hk
  rw [← hf] at hones hsum
  cases found with
  | none =>
    rw [Option.map_none, Option.toFinset_none, Finset.union_empty] at hones
    rw [Option.map_none, Option.toFinset_none, Finset.sum_empty, add_zero] at hsum
    refine ⟨h.total.trans hsum.symm, fun q => ?_, h.ascending, ?_⟩
    · rw [hones]
      exact h.mem_iff q
    · have := h.bounded
      show -(((k + 1 : Nat) : Int) * 2 ^ 63) ≤ t.total ∧ t.total ≤ ((k + 1 : Nat) : Int) * 2 ^ 63
      omega
  | some x =>
    rw [Option.map_some, Option.toFinset_some] at hones hsum
    rw [Finset.sum_singleton] at hsum
    have hv := hcell x rfl
    have hrow : x.row = k := ((Padded.pair?_eq_some_iff ha hone hk).1 hf.symm).1
    refine ⟨?_, fun q => ?_, ?_, ?_⟩
    · show t.total + x.cell.toInt = _
      rw [h.total, hv, hsum]
    · rw [hones, Finset.mem_union, Finset.mem_singleton, ← h.mem_iff]
      show q ∈ t.pairs ++ [(x.row, x.col)] ↔ _
      rw [List.mem_append, List.mem_singleton]
    · -- the rows before have smaller numbers
      refine List.pairwise_append.2 ⟨h.ascending, List.pairwise_singleton _ _, fun y hy z hz => ?_⟩
      have hlt := (Padded.mem_ones.1 ((h.mem_iff y).1 hy)).1
      rw [List.mem_singleton.1 hz]
      show y.1 < x.row
      omega
    · have := h.bounded
      have := entry_bounded m x.row x.col
      show -(((k + 1 : Nat) : Int) * 2 ^ 63) ≤ t.total + x.cell.toInt ∧
        t.total + x.cell.toInt ≤ ((k + 1 : Nat) : Int) * 2 ^ 63
      omega

theorem Counts.addRow (h : t.Counts m a p k) (hm : m.WellFormed) (ha : a.WellFormed)
    (hr : p.rows ≤ m.rows) (hc : p.cols ≤ m.cols) (hone : a.OnePerRow) (hk : k < a.rows) :
    ∃ t', addRow m p a t k = .ok t' ∧ t'.Counts m a p (k + 1) := by
  have hrow : a.row k = .ok (a.slice k) := if_pos (ha ▸ Nat.mul_le_mul_right a.cols hk)
  refine ⟨t.add ((p.pair? a k).map (Solution.pickAt m)), ?_, h.add ha hone hk ?_ ?_⟩
  · rw [Tally.addRow, hrow]
    show (Solution.pick? m p k (a.slice k)).map t.add = _
    rw [Solution.pick?_eq hm.complete hr hc]
    rfl
  · rw [Option.map_map]
    exact Option.map_id'
  · intro x hx
    obtain ⟨q, -, rfl⟩ := Option.mem_map.1 hx
    rfl

/-- However many rows have been tallied, nothing has failed, and the tally counts them. -/
theorem exists_counts (hm : m.WellFormed) (ha : a.WellFormed) (hr : p.rows ≤ m.rows)
    (hc : p.cols ≤ m.cols) (hone : a.OnePerRow) (hk : k ≤ a.rows) :
    ∃ t, ofRows m p a k = .ok t ∧ t.Counts m a p k := by
  induction k with
  | zero => exact ⟨_, rfl, counts_zero⟩
  | succ k ih =>
    obtain ⟨t, ht, hcounts⟩ := ih (by omega)
    obtain ⟨t', ht', hcounts'⟩ := hcounts.addRow hm ha hr hc hone hk
    refine ⟨t', ?_, hcounts'⟩
    unfold ofRows at ht ⊢
    rw [List.range_succ, List.foldlM_append, ht]
    show [k].foldlM (Tally.addRow m p a) t = _
    rw [List.foldlM_cons, ht']
    rfl

/-- A signed integer of 128 bits holds the total of as many rows as a machine word can count. -/
theorem Counts.fits128 (h : t.Counts m a p k) (hk : k < 2 ^ 64) : Fits128 t.total := by
  have := h.bounded
  unfold Fits128
  omega

end Tally

/-! ## The record -/

/-- How the record of the problem `m`, padded to `p`, is made from the assignment `a`. -/
structure Solution.Tallied (m : Matrix) (p : Padded) (a reduced : Matrix) (o : Objective) : Prop where
  row_by_row : Indexed.assemble m p a reduced o = assemble m p a reduced o
  running : ∀ k ≤ a.rows, ∃ t, Tally.ofRows m p a k = .ok t ∧ t.Counts m a p k ∧
    (a.rows < 2 ^ 64 → Fits128 t.total)
  no_fault : ∀ f, assemble m p a reduced o ≠ .error (.fault f)
  overflow_iff : assemble m p a reduced o = .error (.error (.overflow Activity.summing)) ↔
    ¬ (Int64.minValue.toInt ≤ p.onesSum m a a.rows ∧ p.onesSum m a a.rows ≤ Int64.maxValue.toInt)
  answer : Int64.minValue.toInt ≤ p.onesSum m a a.rows ∧ p.onesSum m a a.rows ≤ Int64.maxValue.toInt →
    ∃ s, assemble m p a reduced o = .ok s ∧ s.total.toInt = p.onesSum m a a.rows ∧
      (∀ q, q ∈ s.pairs ↔ q ∈ p.ones a a.rows) ∧ (s.pairs.Pairwise fun x y => x.1 < y.1) ∧
      s.success = true ∧ s.assignment = a ∧ s.reduced = reduced ∧ s.square = p.matrix ∧
      s.rows = p.rows ∧ s.cols = p.cols ∧ s.objective = o

/-- The exact sum of the selected entries decides whether there is a record, and is its total. -/
theorem Solution.assemble_tallied (m : Matrix) (p : Padded) (a reduced : Matrix) (o : Objective)
    (hm : m.WellFormed) (ha : a.WellFormed) (hr : p.rows ≤ m.rows) (hc : p.cols ≤ m.cols)
    (hone : a.OnePerRow) : Tallied m p a reduced o := by
  obtain ⟨t, ht, hcounts⟩ := Tally.exists_counts hm ha hr hc hone (Nat.le_refl a.rows)
  have hbeyond := assemble_of_tally_beyond ht
  rw [hcounts.total] at hbeyond
  have hfits : Int64.minValue.toInt ≤ p.onesSum m a a.rows ∧ p.onesSum m a a.rows ≤ Int64.maxValue.toInt →
      ∃ total : Cell, total.toInt = p.onesSum m a a.rows ∧ assemble m p a reduced o =
        .ok ⟨true, total, a, t.pairs, reduced, p.matrix, p.rows, p.cols, o⟩ := by
    intro hin
    have htotal := Cell.toInt_capped_of_fits hin
    exact ⟨_, htotal, assemble_of_tally ht (htotal.trans hcounts.total.symm) reduced o⟩
  constructor
  · exact Indexed.assemble_eq m p a reduced o
  · intro k hk
    obtain ⟨s, hs, hcounted⟩ := Tally.exists_counts hm ha hr hc hone hk
    exact ⟨s, hs, hcounted, fun hlt => hcounted.fits128 (Nat.lt_of_le_of_lt hk hlt)⟩
  · intro f hf
    by_cases hin : Int64.minValue.toInt ≤ p.onesSum m a a.rows ∧ p.onesSum m a a.rows ≤ Int64.maxValue.toInt
    · obtain ⟨total, -, hok⟩ := hfits hin
      rw [hok] at hf
      cases hf
    · rw [hbeyond hin] at hf
      cases hf
  · constructor
    · intro herr hin
      obtain ⟨total, -, hok⟩ := hfits hin
      rw [hok] at herr
      cases herr
    · exact fun hout => hbeyond hout reduced o
  · intro hin
    obtain ⟨total, htotal, hok⟩ := hfits hin
    exact ⟨_, hok, htotal, hcounts.mem_iff, hcounts.ascending, rfl, rfl, rfl, rfl, rfl, rfl, rfl⟩

/-- The total of the first two rows fits into no cell, that of the first three does; a fourth row is a
dummy, and cells that are not 1 do not count. -/
theorem Solution.assemble_tallied_overshoot :
    (⟨3, 3, #[Int64.maxValue, 0, 0, 0, 1, 0, 0, 0, -10]⟩ : Matrix).WellFormed ∧
    (⟨4, 3, #[1, 7, 0, 0, 1, -2, 0, 0, 1, 1, 0, 0]⟩ : Matrix).WellFormed ∧
    (⟨4, 3, #[1, 7, 0, 0, 1, -2, 0, 0, 1, 1, 0, 0]⟩ : Matrix).OnePerRow ∧
    Tallied ⟨3, 3, #[Int64.maxValue, 0, 0, 0, 1, 0, 0, 0, -10]⟩ ⟨.zeros 4 4, 3, 3⟩
      ⟨4, 3, #[1, 7, 0, 0, 1, -2, 0, 0, 1, 1, 0, 0]⟩ .empty .maximizeUtility := by
  have hone : (⟨4, 3, #[1, 7, 0, 0, 1, -2, 0, 0, 1, 1, 0, 0]⟩ : Matrix).OnePerRow := by
    unfold Matrix.OnePerRow
    decide
  exact ⟨by decide, by decide, hone, assemble_tallied _ _ _ _ _ (by decide) (by decide) (by decide)
    (by decide) hone⟩

end LinearAssignment
