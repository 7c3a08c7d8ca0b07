/-
Data as JSON. A codec writes every value of its type; it reads the values it writes, and the other
spellings that the type admits. Reading is strict about numbers: a number is an integer without
fraction, exponent or negative zero, and within the range of its type.
-/
import LinearAssignment.Cell
import LinearAssignment.Decimal
import LinearAssignment.Json.Text
import LinearAssignment.Matrix.Allocation

namespace LinearAssignment

namespace Json

class Codec (α : Type) where
  encode : α → Json
  decode? : Json → Option α

export Codec (encode decode?)

/-- The JSON text of a value. -/
def write {α : Type} [Codec α] (a : α) : String := String.ofList (encode a).text

/-- The value that a JSON text spells. -/
def read? {α : Type} [Codec α] (s : String) : Option α := (ofText? s.toList).bind decode?

/-! ## Numbers, truth values, lists and pairs -/

instance : Codec Nat where
  encode n := number (Decimal.ofNat n)
  decode?
    | number t => (Decimal.toNat? t).filter (· < sizeLimit)
    | _ => none

instance : Codec Cell where
  encode c := number (Decimal.ofInt c.toInt)
  decode?
    | number t => if t = ['-', '0'] then none else (Decimal.toInt? t).bind Cell.ofInt?
    | _ => none

instance : Codec Bool where
  encode := bool
  decode?
    | bool b => some b
    | _ => none

variable {α β : Type} [Codec α] [Codec β]

instance : Codec (List α) where
  encode l := array (l.map encode)
  decode?
    | array vs => vs.mapM decode?
    | _ => none

instance : Codec (α × β) where
  encode p := array [encode p.1, encode p.2]
  decode?
    | array [v, w] => do return (← decode? v, ← decode? w)
    | _ => none

/-! ## Records -/

/-- The object with the given members, whose keys need no escapes. -/
def record (members : List (String × Json)) : Json :=
  object (members.map fun m => (m.1.toList, m.2))

/-- The values of the named fields in their order. An object has to name each field once, and may
name others besides; an array holds the values of the fields and nothing else. -/
def fields? (names : List String) : Json → Option (List Json)
  | array vs => if vs.length = names.length then some vs else none
  | object ms => do
    let ms ← ms.mapM fun m => (Literal.decode? m.1).map fun k => (k, m.2)
    names.mapM fun name =>
      match ms.filter fun m => m.1 = name.toList with
      | [m] => some m.2
      | _ => none
  | _ => none

end Json

end LinearAssignment
