/-
The balance of the potentials. A search tree has one row for each of its columns and one for the root,
so what a raise adds to the rows it takes from the columns and the root: the sum of all potentials,
that of the root included, is the same at every point of the run.
-/
import LinearAssignment.Proofs.Run
import Mathlib.Data.Finset.Option

namespace LinearAssignment

variable {n : Nat}

/-! ## Tree rows and tree columns -/

namespace SearchTree

/-- The rows of a tree. -/
def rowSet (t : SearchTree n) : Finset (Fin n) := Finset.univ.filter fun i => t.rows.get i = true

/-- The columns of a tree. -/
def colSet (t : SearchTree n) : Finset (Fin n) := Finset.univ.filter fun j => t.cols.get j = true

theorem mem_rowSet {t : SearchTree n} {i : Fin n} : i ∈ t.rowSet ↔ t.rows.get i = true := by
  simp [rowSet]

theorem mem_colSet {t : SearchTree n} {j : Fin n} : j ∈ t.colSet ↔ t.cols.get j = true := by
  simp [colSet]

/-- The slots of a tree are its columns and the root. -/
theorem mem_insertNone_colSet {t : SearchTree n} {s : Slot n} : s ∈ t.colSet.insertNone ↔ t.Has s := by
  cases s with
  | none => exact iff_of_true Finset.none_mem_insertNone trivial
  | some j => rw [Finset.some_mem_insertNone, mem_colSet]; rfl

end SearchTree

/-- Each slot of the tree holds one of its rows, and each of its rows is in one of them. -/
theorem Search.Inv.card_rowSet {c : Costs n} {m : Matching n} {s : Search n} {root : Fin n}
    (h : s.Inv c m) (hm : m.Seated root) : s.tree.rowSet.card = s.tree.colSet.card + 1 := by
  rw [← Finset.card_insertNone]
  choose f hf using h.matched
  refine (Finset.card_bij (fun t ht => f t (SearchTree.mem_insertNone_colSet.1 ht))
    (fun t ht => ?_) (fun t ht u hu e => ?_) fun i hi => ?_).symm
  · have ht' := SearchTree.mem_insertNone_colSet.1 ht
    exact SearchTree.mem_rowSet.2 ((h.rows _).2 ⟨t, ht', hf t ht'⟩)
  · exact hm.unique (hf t _) (e ▸ hf u _)
  · obtain ⟨t, ht, hti⟩ := (h.rows i).1 (SearchTree.mem_rowSet.1 hi)
    exact ⟨t, SearchTree.mem_insertNone_colSet.2 ht, Option.some.inj ((hf t ht).symm.trans hti)⟩

/-! ## The sum of the potentials -/

namespace Potentials

/-- The sum of all potentials, that of the root included. -/
def total (p : Potentials n) : Int := p.value + p.root

theorem sum_add_ite (f : Fin n → Int) (q : Fin n → Bool) (d : Int) :
    ∑ i, (if q i = true then f i + d else f i) =
      ∑ i, f i + (Finset.univ.filter fun i => q i = true).card * d := by
  have hterm : ∀ i, (if q i = true then f i + d else f i) = f i + if q i = true then d else 0 := by
    intro i
    split <;> omega
  rw [Finset.sum_congr rfl fun i _ => hterm i, Finset.sum_add_distrib, ← Finset.sum_filter,
    Finset.sum_const, nsmul_eq_mul]

theorem value_raise (p : Potentials n) (t : SearchTree n) (d : Int) :
    (p.raise t d).value = p.value + t.rowSet.card * d - t.colSet.card * d := by
  have hcol : ∑ j, (p.raise t d).col.get j = ∑ j, p.col.get j + t.colSet.card * -d := by
    simp only [raise_col, Int.sub_eq_add_neg]
    exact sum_add_ite _ _ _
  have hrow : ∑ i, (p.raise t d).row.get i = ∑ i, p.row.get i + t.rowSet.card * d := by
    simp only [raise_row]
    exact sum_add_ite _ _ _
  unfold value
  rw [hrow, hcol, Int.mul_neg]
  omega

theorem total_raise {p : Potentials n} {t : SearchTree n} (h : t.rowSet.card = t.colSet.card + 1)
    (d : Int) : (p.raise t d).total = p.total := by
  have hroot : (p.raise t d).root = p.root - d := rfl
  unfold total
  rw [value_raise, hroot, h, Nat.cast_succ, Int.add_mul, Int.one_mul]
  omega

end Potentials

variable {c : Costs n} {p q : Point n}

theorem Step.total (h : Step c p q) (hp : p.Sound c) : q.potentials.total = p.potentials.total := by
  cases h with
  | start => rfl
  | raise hj => exact Potentials.total_raise (hp.2.card_rowSet hp.1.seated) _
  | absorb hr => rfl
  | flip hj => rfl

theorem Steps.total (h : Steps c p q) (hp : p.Sound c) : q.potentials.total = p.potentials.total := by
  induction h with
  | refl => rfl
  | tail hsteps hstep ih => rw [hstep.total (Steps.sound hsteps hp), ih]

/-- At every point of the run the potentials add up to the value of the reduction. -/
theorem Point.Visited.total (h : p.Visited c) : p.potentials.total = (Potentials.initial c).value := by
  have hroot : (Potentials.initial c).root = 0 := rfl
  rw [Steps.total h (Progress.initial_awaits c)]
  show (Potentials.initial c).total = _
  rw [Potentials.total, hroot, Int.add_zero]

end LinearAssignment
