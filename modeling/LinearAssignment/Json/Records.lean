/-
The JSON forms of matrices, objectives, solutions and summaries. Fields are written in a fixed order;
nothing is checked about how the fields of a record that is read fit together.
-/
import LinearAssignment.Json.Codec
import LinearAssignment.Summary

namespace LinearAssignment.Json

instance : Codec Matrix where
  encode m := record [("rows", encode m.rows), ("cols", encode m.cols), ("data", encode m.data.toList)]
  decode? v := do
    match ← fields? ["rows", "cols", "data"] v with
    | [rows, cols, data] =>
      let data : List Cell ← decode? data
      return { rows := ← decode? rows, cols := ← decode? cols, data := data.toArray }
    | _ => none

/-- The objective of the given name. -/
def objective? (name : List Char) : Option Objective :=
  [Objective.minimizeCost, .maximizeUtility].find? fun o => o.name.toList = name

/-- An objective is its name; it may also be read from an object with the name alone, for null. -/
instance : Codec Objective where
  encode o := string o.name.toList
  decode?
    | string t => (Literal.decode? t).bind objective?
    | object [(k, null)] => (Literal.decode? k).bind objective?
    | _ => none

/-- The row that a key stands for: a number written between the quotes just as outside them. -/
def rowOfKey? (key : List Char) : Option Nat :=
  match Number.scan key with
  | some (t, []) => decode? (number t)
  | _ => none

/-- A row map is an object with the rows as keys; of members with the same key the last one counts. -/
instance : Codec RowMap where
  encode m := object (m.entries.map fun e => (Decimal.ofNat e.1, encode e.2))
  decode?
    | object ms => do
      let entries ← ms.mapM fun m => do
        let row ← rowOfKey? m.1
        let col : Nat ← decode? m.2
        return (row, col)
      return .ofList entries
    | _ => none

instance : Codec Solution where
  encode s := record [("success", encode s.success), ("total", encode s.total),
    ("assignment", encode s.assignment), ("assignment_map", encode s.pairs),
    ("cost", encode s.reduced), ("matrix", encode s.square), ("rows", encode s.rows),
    ("cols", encode s.cols), ("mode", encode s.objective)]
  decode? v := do
    match ← fields? ["success", "total", "assignment", "assignment_map", "cost", "matrix", "rows",
      "cols", "mode"] v with
    | [success, total, assignment, pairs, reduced, square, rows, cols, objective] =>
      return {
        success := ← decode? success
        total := ← decode? total
        assignment := ← decode? assignment
        pairs := ← decode? pairs
        reduced := ← decode? reduced
        square := ← decode? square
        rows := ← decode? rows
        cols := ← decode? cols
        objective := ← decode? objective }
    | _ => none

instance : Codec Summary where
  encode s := record [("success", encode s.success), ("total_cost", encode s.total),
    ("assignment", encode s.assignment), ("assignment_map", encode s.columns),
    ("cost", encode s.reduced), ("matrix", encode s.square)]
  decode? v := do
    match ← fields? ["success", "total_cost", "assignment", "assignment_map", "cost", "matrix"] v with
    | [success, total, assignment, columns, reduced, square] =>
      return {
        success := ← decode? success
        total := ← decode? total
        assignment := ← decode? assignment
        columns := ← decode? columns
        reduced := ← decode? reduced
        square := ← decode? square }
    | _ => none

end LinearAssignment.Json
