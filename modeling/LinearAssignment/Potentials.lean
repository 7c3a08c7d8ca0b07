/-
Costs of a square problem, and potentials for its rows and columns. The reduced cost of a position
is its cost less the potentials of its row and its column. Potentials are exact integers, so "is
zero" is never a matter of rounding or of overflow.
-/
import LinearAssignment.Table

namespace LinearAssignment

/-- The costs of a problem with `n` rows and `n` columns. -/
abbrev Costs (n : Nat) := Fin n → Fin n → Int

/-- Potentials for the rows, the columns, and the root of search trees. The root counts as one more
column, outside the problem and in every tree; its potential records how far searches have raised
their rows. -/
structure Potentials (n : Nat) where
  row : Vector Int n
  col : Vector Int n
  root : Int
deriving DecidableEq, Repr

/-- The least value of `f`, `0` if there is no argument. -/
def least {n : Nat} (f : Fin n → Int) : Int := (((List.finRange n).map f).min?).getD 0

namespace Potentials

variable {n : Nat}

/-- The reduced cost of the position in row `i` and column `j`. -/
def reduced (p : Potentials n) (c : Costs n) (i j : Fin n) : Int := c i j - p.row.get i - p.col.get j

/-- Whether the position has reduced cost zero. -/
def isTight (p : Potentials n) (c : Costs n) (i j : Fin n) : Bool := p.reduced c i j == 0

/-- Row reduction, then column reduction: the least cost of each row, and for each column the least
of what then remains in it. -/
def initial (c : Costs n) : Potentials n :=
  let row : Vector Int n := .ofFn fun i => least (c i)
  { row := row
    col := .ofFn fun j => least fun i => c i j - row.get i
    root := 0 }

end Potentials

end LinearAssignment
