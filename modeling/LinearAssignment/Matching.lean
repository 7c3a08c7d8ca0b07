/-
Partial matchings of the rows and columns of a square problem, kept from both sides, with the two
ways they grow: greedily, and by moving rows along the pointers that a search leaves behind.
-/
import LinearAssignment.Table

namespace LinearAssignment

/-- A place for one row: a column, or the root of a search tree (`none`), which counts as one more
column. -/
abbrev Slot (n : Nat) := Option (Fin n)

structure Matching (n : Nat) where
  /-- The column of each matched row. -/
  colOf : Vector (Option (Fin n)) n
  /-- The row of each matched column. -/
  rowOf : Vector (Option (Fin n)) n
  /-- The row in the root: the free row of the search under way, none between searches. -/
  rootRow : Option (Fin n)
deriving DecidableEq, Repr

namespace Matching

variable {n : Nat}

def empty : Matching n := ⟨.replicate n none, .replicate n none, none⟩

/-- Matches row `i` with column `j`. -/
def pair (m : Matching n) (i j : Fin n) : Matching n where
  colOf := m.colOf.set i (some j) i.isLt
  rowOf := m.rowOf.set j (some i) j.isLt
  rootRow := m.rootRow

/-- The unmatched rows, in ascending order. -/
def freeRows (m : Matching n) : List (Fin n) :=
  (List.finRange n).filter fun i => (m.colOf.get i).isNone

/-! ## Greedy growth -/

/-- The lowest unmatched column that `allowed` admits for row `i`. -/
def firstFree? (m : Matching n) (allowed : Fin n → Fin n → Bool) (i : Fin n) : Option (Fin n) :=
  (List.finRange n).find? fun j => (m.rowOf.get j).isNone && allowed i j

/-- Offers row `i` its lowest unmatched admitted column. -/
def offer (allowed : Fin n → Fin n → Bool) (m : Matching n) (i : Fin n) : Matching n :=
  match m.firstFree? allowed i with
  | some j => m.pair i j
  | none => m

/-- Matches the rows in ascending order, each with the lowest admitted column still unmatched. -/
def greedy (allowed : Fin n → Fin n → Bool) : Matching n :=
  (List.finRange n).foldl (offer allowed) empty

/-! ## Growth along pointers -/

/-- The row in a slot. -/
def rowAt (m : Matching n) : Slot n → Option (Fin n)
  | none => m.rootRow
  | some j => m.rowOf.get j

/-- Puts row `i` into the root. -/
def seat (m : Matching n) (i : Fin n) : Matching n := { m with rootRow := some i }

/-- Moves rows along the pointers from a slot to the root: the column at hand takes the row of the
slot it points to, and the walk goes on from that slot, for the given number of steps at most. -/
def shift (via : Vector (Slot n) n) : Nat → Slot n → Matching n → Matching n
  | steps + 1, some j, m =>
    shift via steps (via.get j) { m with rowOf := m.rowOf.set j (m.rowAt (via.get j)) j.isLt }
  | _, _, m => m

/-- Enters the row of column `j` into the columns of the rows. -/
def enter (m : Matching n) (colOf : Vector (Option (Fin n)) n) (j : Fin n) :
    Vector (Option (Fin n)) n :=
  match m.rowOf.get j with
  | some i => colOf.set i (some j) i.isLt
  | none => colOf

/-- Brings the columns of the rows up to date with the rows of the columns. -/
def refresh (m : Matching n) : Matching n :=
  { m with colOf := (List.finRange n).foldl m.enter m.colOf }

/-- Matches column `j` by moving rows along the pointers from it, which leaves the root empty. A way
to the root passes no column twice, so `n` steps are enough for it. -/
def augment (m : Matching n) (via : Vector (Slot n) n) (j : Fin n) : Matching n :=
  { m.shift via n (some j) with rootRow := none }.refresh

end Matching

end LinearAssignment
