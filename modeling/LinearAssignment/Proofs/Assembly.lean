/-
Assembly of the record. Whatever well-formed assignment it gets, a record lists the positions of the
first 1 of each row, as far as they belong to the matrix before padding, and its total is the sum of
the entries there; the only error is a total that fits into no cell.
-/
import LinearAssignment.Proofs.Padding
import LinearAssignment.Solution

namespace LinearAssignment

/-- The position of the first 1 in row `i` of the assignment `a`, unless it is a dummy. -/
def Padded.pair? (p : Padded) (a : Matrix) (i : Nat) : Option (Nat × Nat) :=
  ((a.slice i).idxOf? 1).bind fun j => if p.isReal i j then some (i, j) else none

/-- The positions of the first 1 of each row of `a` that belong to the matrix before padding. -/
def Padded.pairs (p : Padded) (a : Matrix) : List (Nat × Nat) :=
  (List.range a.rows).filterMap (p.pair? a)

theorem Matrix.WellFormed.idxOf?_slice {a : Matrix} (ha : a.WellFormed) {i j : Nat} (hi : i < a.rows)
    (hj : j < a.cols) (h1 : a.entry i j = 1) (hfirst : ∀ k < j, a.entry i k ≠ 1) :
    (a.slice i).idxOf? 1 = some j := by
  have hcell : ∀ k < a.cols, ∃ c, (a.slice i)[k]? = some c ∧ c.toInt = a.entry i k := by
    intro k hk
    rw [Matrix.getElem?_slice i hk]
    exact ha.exists_cell hi hk
  obtain ⟨c, hc, hv⟩ := hcell j hj
  obtain ⟨hlt, hget⟩ := List.getElem?_eq_some_iff.1 hc
  refine List.idxOf?_eq_some_iff.2 ⟨hlt, ?_, fun k hk hone => ?_⟩
  · rw [hget]
    exact Int64.toInt_inj.1 (hv.trans h1)
  · obtain ⟨d, hd, hdv⟩ := hcell k (by omega)
    obtain ⟨hklt, hkget⟩ := List.getElem?_eq_some_iff.1 hd
    rw [hkget] at hone
    exact hfirst k hk (by rw [← hdv, hone]; rfl)

namespace Solution

variable {m a : Matrix} {p : Padded}

/-- A pick of `m` at a position. -/
def pickAt (m : Matrix) (q : Nat × Nat) : Pick := ⟨q.1, q.2, m.data.getD (q.1 * m.cols + q.2) 0⟩

theorem pick?_eq (hm : m.Complete) (hr : p.rows ≤ m.rows) (hc : p.cols ≤ m.cols) (i : Nat) :
    pick? m p i (a.slice i) = .ok ((p.pair? a i).map (pickAt m)) := by
  unfold pick? Padded.pair?
  cases hj : (a.slice i).idxOf? 1 with
  | none => rfl
  | some j =>
    simp only [Option.bind_some]
    split
    · next hreal =>
      have hpos : i < p.rows ∧ j < p.cols := by simpa [Padded.isReal] using hreal
      obtain ⟨c, hcell, hv⟩ := hm.exists_cell_eq (by omega : i < m.rows) (by omega : j < m.cols)
      have hget : m.data.getD (i * m.cols + j) 0 = c := Int64.toInt_inj.1 hv.symm
      rw [hcell, Option.map_some, pickAt, hget]
      rfl
    · rfl

theorem zipIdx_of_range {α : Type} (f : Nat → α) (n : Nat) :
    ((List.range n).map f).zipIdx = (List.range n).map fun i => (f i, i) := by
  refine List.ext_getElem? fun k => ?_
  by_cases hk : k < n <;> simp [hk]

theorem picks_eq (hm : m.Complete) (ha : a.WellFormed) (hr : p.rows ≤ m.rows)
    (hc : p.cols ≤ m.cols) : picks m p a = .ok ((p.pairs a).map (pickAt m)) := by
  have hfound : a.fullRows.zipIdx.mapM (fun r => pick? m p r.2 r.1) =
      .ok ((List.range a.rows).map fun i => (p.pair? a i).map (pickAt m)) := by
    rw [ha.fullRows, zipIdx_of_range, List.mapM_map]
    exact mapM_ok fun i _ => pick?_eq hm hr hc i
  unfold picks Padded.pairs
  rw [hfound]
  show (if a.Complete then Except.ok _ else _) = _
  rw [if_pos ha.complete, List.filterMap_map, List.map_filterMap]
  rfl

theorem assemble_eq (hm : m.Complete) (ha : a.WellFormed) (hr : p.rows ≤ m.rows)
    (hc : p.cols ≤ m.cols) (reduced : Matrix) (o : Objective) :
    assemble m p a reduced o =
      match Cell.ofInt? (m.pairSum (p.pairs a)) with
      | none => .error (.error (.overflow Activity.summing))
      | some total => .ok ⟨true, total, a, p.pairs a, reduced, p.matrix, p.rows, p.cols, o⟩ := by
  have hsum : ((p.pairs a).map (pickAt m)).foldl (fun total k => total + k.cell.toInt) 0 =
      m.pairSum (p.pairs a) := by
    rw [Matrix.pairSum, List.sum_eq_foldl, List.foldl_map, List.foldl_map]
    rfl
  have hpairs : (((p.pairs a).map (pickAt m)).map fun k => (k.row, k.col)) = p.pairs a := by
    rw [List.map_map]
    exact List.map_id _
  unfold assemble
  rw [picks_eq hm ha hr hc]
  cases ht : Cell.ofInt? (m.pairSum (p.pairs a)) with
  | none => simp only [hsum, ht]
  | some total => simp only [hsum, hpairs, ht]

end Solution

end LinearAssignment
