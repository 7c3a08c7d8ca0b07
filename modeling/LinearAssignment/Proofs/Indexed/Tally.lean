/-
Assembly row by row. The rows of the assignment are sliced one after the other; the first 1 of a row, if
it is not a dummy, adds its cell to a running total and its position to the pairs found so far. Whatever
the matrices store, this ends as assembly does, with the same fault if a cell is missing.
-/
import LinearAssignment.Proofs.Assembly

namespace LinearAssignment

/-- What has been found in the rows of an assignment. -/
structure Tally where
  total : Int
  pairs : List (Nat × Nat)

namespace Tally

/-- Adds what one row picks. -/
def add (t : Tally) : Option Solution.Pick → Tally
  | none => t
  | some k => ⟨t.total + k.cell.toInt, t.pairs ++ [(k.row, k.col)]⟩

/-- Slices row `i` of the assignment and adds what it picks. -/
def addRow (m : Matrix) (p : Padded) (a : Matrix) (t : Tally) (i : Nat) : Except Fault Tally :=
  (a.row i).bind fun row => (Solution.pick? m p i row).map t.add

/-- What is found in the first `k` rows of the assignment. -/
def ofRows (m : Matrix) (p : Padded) (a : Matrix) (k : Nat) : Except Fault Tally :=
  (List.range k).foldlM (addRow m p a) ⟨0, []⟩

end Tally

namespace Indexed

/-- The record of the problem `m`, assembled row by row. -/
def assemble (m : Matrix) (p : Padded) (a reduced : Matrix) (o : Objective) : Except Failure Solution :=
  match Tally.ofRows m p a a.rows with
  | .error f => .error (.fault f)
  | .ok t =>
    match Cell.ofInt? t.total with
    | none => .error (.error (.overflow Activity.summing))
    | some total => .ok ⟨true, total, a, t.pairs, reduced, p.matrix, p.rows, p.cols, o⟩

end Indexed

/-! ## Picking first, adding later -/

/-- A loop that finds a value for each element and takes it in at once may find all of them first. -/
theorem foldlM_map_step {ε σ α β : Type} (f : α → Except ε β) (g : σ → β → σ) (l : List α) (s : σ) :
    l.foldlM (fun s x => (f x).map (g s)) s = (l.mapM f).map fun ys => ys.foldl g s := by
  induction l generalizing s with
  | nil => rfl
  | cons x l ih =>
    rw [List.foldlM_cons, List.mapM_cons]
    cases f x with
    | error e => rfl
    | ok y =>
      refine (ih (g s y)).trans ?_
      cases l.mapM f <;> rfl

namespace Tally

theorem foldl_add (found : List (Option Solution.Pick)) (t : Tally) :
    found.foldl add t = ⟨(found.filterMap id).foldl (fun total k => total + k.cell.toInt) t.total,
      t.pairs ++ (found.filterMap id).map fun k => (k.row, k.col)⟩ := by
  induction found generalizing t with
  | nil => simp
  | cons k found ih =>
    rw [List.foldl_cons, ih]
    cases k <;> simp [add]

variable (m : Matrix) (p : Padded) (a : Matrix)

/-- The tally of all rows is that of the picks. -/
theorem ofRows_eq_picks : ofRows m p a a.rows = (Solution.picks m p a).map fun found =>
    ⟨found.foldl (fun total k => total + k.cell.toInt) 0, found.map fun k => (k.row, k.col)⟩ := by
  have hloop := Matrix.foldlM_row (m := a)
    (fun t i row => (Solution.pick? m p i row).map (add t)) (⟨0, []⟩ : Tally)
  rw [foldlM_map_step (fun i => Solution.pick? m p i (a.slice i))] at hloop
  unfold Solution.picks Matrix.fullRows
  rw [Solution.zipIdx_of_range, List.mapM_map]
  refine hloop.trans ?_
  show _ = Except.map _ ((((List.range a.fullRowCount).mapM fun i =>
    Solution.pick? m p i (a.slice i))).bind fun found => _)
  cases (List.range a.fullRowCount).mapM fun i => Solution.pick? m p i (a.slice i) with
  | error f => rfl
  | ok found =>
    show (if a.Complete then Except.ok (found.foldl add ⟨0, []⟩) else .error .missingCells) =
      Except.map _ (if a.Complete then .ok (found.filterMap id) else Except.error Fault.missingCells)
    rw [foldl_add]
    split <;> rfl

end Tally

/-- Assembly row by row is assembly. -/
theorem Indexed.assemble_eq (m : Matrix) (p : Padded) (a reduced : Matrix) (o : Objective) :
    assemble m p a reduced o = Solution.assemble m p a reduced o := by
  unfold assemble Solution.assemble
  rw [Tally.ofRows_eq_picks]
  cases Solution.picks m p a with
  | error f => rfl
  | ok found => rfl

namespace Solution

variable {m a : Matrix} {p : Padded} {t : Tally} (ht : Tally.ofRows m p a a.rows = .ok t)
include ht

/-- The tally has the total and the pairs of the record. -/
theorem assemble_of_tally {total : Cell} (h : total.toInt = t.total) (reduced : Matrix) (o : Objective) :
    assemble m p a reduced o =
      .ok ⟨true, total, a, t.pairs, reduced, p.matrix, p.rows, p.cols, o⟩ := by
  rw [← Indexed.assemble_eq]
  unfold Indexed.assemble
  simp only [ht, Cell.ofInt?_eq_some_iff.2 h]

theorem assemble_of_tally_beyond
    (h : ¬ (Int64.minValue.toInt ≤ t.total ∧ t.total ≤ Int64.maxValue.toInt)) (reduced : Matrix)
    (o : Objective) : assemble m p a reduced o = .error (.error (.overflow Activity.summing)) := by
  rw [← Indexed.assemble_eq]
  unfold Indexed.assemble
  simp only [ht, Cell.ofInt?_eq_none_iff.2 h]

end Solution

end LinearAssignment
