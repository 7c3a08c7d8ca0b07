/-
The two objectives, and the settings of a run. Utilities are assigned by way of costs: the cost of a
utility is what it lacks to the largest one.
-/
import LinearAssignment.Cell
import LinearAssignment.Error

namespace LinearAssignment

/-- What the cells of a problem mean, and which total is wanted. -/
inductive Objective where
  | minimizeCost
  | maximizeUtility
deriving DecidableEq, Repr

namespace Objective

def name : Objective → String
  | minimizeCost => "MinimizeCost"
  | maximizeUtility => "MaximizeUtility"

/-- The cost that stands for the cell `c` where `top` is the largest cell. -/
def cost (o : Objective) (top c : Cell) : Except Error Cell :=
  match o with
  | minimizeCost => .ok c
  | maximizeUtility =>
    match Cell.ofInt? (top.toInt - c.toInt) with
    | some d => .ok d
    | none => .error (.overflow Activity.transforming)

end Objective

/-- How to run: the objective, and whether a batch may be spread over several workers. -/
structure Settings where
  objective : Objective := .minimizeCost
  parallel : Bool := false
deriving DecidableEq, Repr

end LinearAssignment
