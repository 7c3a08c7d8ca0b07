/-
Search trees: the rows and columns that tight positions and matched positions reach from one free
row. Each column outside the tree keeps its slack, the least reduced cost of the column among the
tree rows, and a pointer to the slot of the row that has it. A column that joins the tree keeps its
pointer, so the pointers lead from any column back to the root.
-/
import LinearAssignment.Matching
import LinearAssignment.Potentials

namespace LinearAssignment

structure SearchTree (n : Nat) where
  /-- Whether a row is in the tree. -/
  rows : Vector Bool n
  /-- Whether a column is in the tree. -/
  cols : Vector Bool n
  slack : Vector Int n
  /-- The slot of the tree row that a column is reached from. -/
  via : Vector (Slot n) n
deriving DecidableEq, Repr

namespace SearchTree

variable {n : Nat}

/-- The tree of the row `root` alone, where `reduced` are the reduced costs of that row. -/
def start (root : Fin n) (reduced : Fin n → Int) : SearchTree n where
  rows := (Vector.replicate n false).set root true root.isLt
  cols := .replicate n false
  slack := .ofFn reduced
  via := .replicate n none

/-- The columns outside the tree, in ascending order. -/
def outside (t : SearchTree n) : List (Fin n) :=
  (List.finRange n).filter fun j => !(t.cols.get j)

/-- The lowest column of least slack outside the tree. -/
def nearest? (t : SearchTree n) : Option (Fin n) := t.outside.minOn? fun j => t.slack.get j

/-- Subtracts `d` from the slack of every column outside the tree. -/
def lower (t : SearchTree n) (d : Int) : SearchTree n :=
  { t with slack := .ofFn fun j => if t.cols.get j then t.slack.get j else t.slack.get j - d }

/-- Adds column `j` and its row `r`, whose reduced costs are `reduced`. A column still outside is
reached from `j` where that lowers its slack. -/
def absorb (t : SearchTree n) (j r : Fin n) (reduced : Fin n → Int) : SearchTree n :=
  let cols := t.cols.set j true j.isLt
  { rows := t.rows.set r true r.isLt
    cols := cols
    slack := .ofFn fun k => if cols.get k then t.slack.get k else min (t.slack.get k) (reduced k)
    via := .ofFn fun k => if !(cols.get k) && reduced k < t.slack.get k then some j else t.via.get k }

theorem mem_outside {t : SearchTree n} {j : Fin n} : j ∈ t.outside ↔ t.cols.get j = false := by
  simp [outside]

@[simp] theorem outside_lower (t : SearchTree n) (d : Int) : (t.lower d).outside = t.outside := rfl

theorem outside_absorb (t : SearchTree n) (j r : Fin n) (reduced : Fin n → Int) :
    (t.absorb j r reduced).outside = t.outside.filter (· ≠ j) := by
  simp only [outside, absorb, List.filter_filter]
  refine List.filter_congr fun k _ => ?_
  by_cases h : k = j <;> simp [h]

/-- A column from outside that joins the tree is outside no more. -/
theorem length_outside_absorb_lt {t : SearchTree n} {j : Fin n} (hj : j ∈ t.outside) (r : Fin n)
    (reduced : Fin n → Int) : (t.absorb j r reduced).outside.length < t.outside.length := by
  rw [outside_absorb]
  exact List.length_filter_lt_length_iff_exists.2 ⟨j, hj, by simp⟩

theorem nearest?_mem {t : SearchTree n} {j : Fin n} (h : t.nearest? = some j) : j ∈ t.outside :=
  List.minOn?_mem h

end SearchTree

/-- Adds `d` to the potentials of the tree rows and subtracts it from those of the tree columns and
of the root. Tight positions inside the tree stay tight. -/
def Potentials.raise {n : Nat} (p : Potentials n) (t : SearchTree n) (d : Int) : Potentials n where
  row := .ofFn fun i => if t.rows.get i then p.row.get i + d else p.row.get i
  col := .ofFn fun j => if t.cols.get j then p.col.get j - d else p.col.get j
  root := p.root - d

end LinearAssignment
