/-
JSON values. Numbers and strings are kept as they are written, a number as its text and a string as
the text between its quotes, so that nothing about their spelling is lost before it is known what
they are read for. Members of an object keep their order and may repeat a key.
-/

namespace LinearAssignment

inductive Json where
  | null
  | bool (b : Bool)
  | number (text : List Char)
  | string (text : List Char)
  | array (items : List Json)
  | object (members : List (List Char × Json))
deriving Repr, Inhabited

end LinearAssignment
