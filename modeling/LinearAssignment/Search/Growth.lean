/-
Growing a search tree until it reaches an unmatched column. Each round takes the nearest column,
raises the potentials by its slack so that it becomes tight, and, if the column is matched, adds it
and its row to the tree. Every round but the last takes a column from outside the tree, so there
are at most as many rounds as columns outside.
-/
import LinearAssignment.Search.Tree

namespace LinearAssignment

/-- A search: the potentials it has reached, its tree, and the number of raises that changed a
potential. -/
structure Search (n : Nat) where
  potentials : Potentials n
  tree : SearchTree n
  adjustments : Nat
deriving DecidableEq, Repr

namespace Search

variable {n : Nat}

/-- The search from the free row `root`. -/
def start (c : Costs n) (p : Potentials n) (root : Fin n) : Search n where
  potentials := p
  tree := .start root (p.reduced c root)
  adjustments := 0

/-- Raises the tree by `d`. -/
def raise (s : Search n) (d : Int) : Search n where
  potentials := s.potentials.raise s.tree d
  tree := s.tree.lower d
  adjustments := if 0 < d then s.adjustments + 1 else s.adjustments

/-- Adds column `j` and its row `r` to the tree. -/
def absorb (s : Search n) (c : Costs n) (j r : Fin n) : Search n :=
  { s with tree := s.tree.absorb j r (s.potentials.reduced c r) }

/-- The unmatched column that the tree reaches, and the search at that point. -/
def grow (c : Costs n) (m : Matching n) (s : Search n) : Option (Fin n × Search n) :=
  match _ : s.tree.nearest? with
  | none => none
  | some j =>
    let raised := s.raise (s.tree.slack.get j)
    match m.rowOf.get j with
    | none => some (j, raised)
    | some r => grow c m (raised.absorb c j r)
termination_by s.tree.outside.length
decreasing_by
  have hj : j ∈ s.tree.outside := SearchTree.nearest?_mem ‹_›
  exact SearchTree.length_outside_absorb_lt (t := s.tree.lower (s.tree.slack.get j)) hj r _

end Search

end LinearAssignment
