/-
A perfect matching of least cost, by the Hungarian method: reduce rows and columns, match tight
positions greedily, then for every row left over, in ascending order, search for an unmatched
column and move rows along the way to it. Reduced costs stay nonnegative and matched
positions stay tight, which makes the final matching one of least cost.
-/
import LinearAssignment.Search.Growth

namespace LinearAssignment

/-- A partial matching on the way to a perfect one, with potentials that support it. -/
structure Progress (n : Nat) where
  potentials : Potentials n
  matching : Matching n
  /-- The number of raises so far that changed a potential. -/
  adjustments : Nat
deriving DecidableEq, Repr

namespace Progress

variable {n : Nat}

/-- Potentials by reduction, and the greedy matching of the tight positions. -/
def initial (c : Costs n) : Progress n :=
  let p := Potentials.initial c
  { potentials := p, matching := .greedy (p.isTight c), adjustments := 0 }

/-- Matches the free row `root`. -/
def augment (c : Costs n) (s : Progress n) (root : Fin n) : Progress n :=
  let seated := s.matching.seat root
  match (Search.start c s.potentials root).grow c seated with
  | none => s
  | some (j, found) =>
    { potentials := found.potentials
      matching := seated.augment found.tree.via j
      adjustments := s.adjustments + found.adjustments }

end Progress

/-- The outcome of the method. -/
structure Optimum (n : Nat) where
  potentials : Potentials n
  matching : Matching n
  /-- The number of rows that the greedy matching left free. -/
  augmentations : Nat
  /-- The number of raises that changed a potential. -/
  adjustments : Nat
deriving DecidableEq, Repr

/-- A least-cost perfect matching, with potentials that prove it. -/
def optimum {n : Nat} (c : Costs n) : Optimum n :=
  let first := Progress.initial c
  let free := first.matching.freeRows
  let last := free.foldl (Progress.augment c) first
  { potentials := last.potentials
    matching := last.matching
    augmentations := free.length
    adjustments := last.adjustments }

/-- The number of rows that the greedy matching matched. -/
def Optimum.matchedFirst {n : Nat} (o : Optimum n) : Nat := n - o.augmentations

end LinearAssignment
