/-
JSON values as text, in both directions. Text is written without blanks. It is read token by token
by a machine that keeps, for each array and object around the current place, what came before it.
-/
import LinearAssignment.Json.Basic
import LinearAssignment.Json.Token

namespace LinearAssignment.Json

/-! ## Writing -/

mutual

/-- The tokens that a value is written with. -/
def tokens : Json → List Token
  | null => [.null]
  | bool b => [.bool b]
  | number t => [.number t]
  | string t => [.string t]
  | array [] => [.openArray, .closeArray]
  | array (v :: vs) => .openArray :: tokens v ++ tokensOfItems vs
  | object [] => [.openObject, .closeObject]
  | object ((k, v) :: ms) => .openObject :: .string k :: .colon :: tokens v ++ tokensOfMembers ms

/-- The tokens of the items after the first, with the end of the array. -/
def tokensOfItems : List Json → List Token
  | [] => [.closeArray]
  | v :: vs => .comma :: tokens v ++ tokensOfItems vs

/-- The tokens of the members after the first, with the end of the object. -/
def tokensOfMembers : List (List Char × Json) → List Token
  | [] => [.closeObject]
  | (k, v) :: ms => .comma :: .string k :: .colon :: tokens v ++ tokensOfMembers ms

end

/-- The text of a value. -/
def text (v : Json) : List Char := v.tokens.flatMap Token.text

/-! ## Reading -/

/-- An array or object that is being read. What it holds so far comes newest first. -/
inductive Frame where
  | items (before : List Json)
  /-- The value being read belongs to `key`. -/
  | members (before : List (List Char × Json)) (key : List Char)

/-- What the reader waits for, inside the frames of `stack`. -/
inductive Reader where
  | value (stack : List Frame)
  /-- An array has just been opened: its first value, or its end. -/
  | item (stack : List Frame)
  /-- An object has just been opened: its first key, or its end. -/
  | member (stack : List Frame)
  | key (stack : List Frame) (before : List (List Char × Json))
  | colon (stack : List Frame) (before : List (List Char × Json)) (key : List Char)
  /-- The value `v` is complete: what may follow a value. -/
  | next (stack : List Frame) (v : Json)

namespace Reader

/-- The reader after a token where a value begins. -/
def begin (stack : List Frame) : Token → Option Reader
  | .null => some (next stack null)
  | .bool b => some (next stack (.bool b))
  | .number t => some (next stack (.number t))
  | .string t => some (next stack (.string t))
  | .openArray => some (item stack)
  | .openObject => some (member stack)
  | _ => none

/-- The reader after a token, unless the token is out of place. -/
def step? : Reader → Token → Option Reader
  | value stack, t => begin stack t
  | item stack, .closeArray => some (next stack (array []))
  | item stack, t => begin (.items [] :: stack) t
  | member stack, .closeObject => some (next stack (object []))
  | member stack, .string k => some (colon stack [] k)
  | key stack before, .string k => some (colon stack before k)
  | colon stack before k, .colon => some (value (.members before k :: stack))
  | next (.items before :: stack) v, .comma => some (value (.items (v :: before) :: stack))
  | next (.items before :: stack) v, .closeArray => some (next stack (array (v :: before).reverse))
  | next (.members before k :: stack) v, .comma => some (key stack ((k, v) :: before))
  | next (.members before k :: stack) v, .closeObject =>
    some (next stack (object ((k, v) :: before).reverse))
  | _, _ => none

/-- The value that has been read, if no array or object is still open. -/
def result? : Reader → Option Json
  | next [] v => some v
  | _ => none

end Reader

/-- The value that a list of tokens spells. -/
def ofTokens? (ts : List Token) : Option Json :=
  (ts.foldlM Reader.step? (.value [])).bind Reader.result?

/-- The value that a text spells. -/
def ofText? (s : List Char) : Option Json := (Token.list? s).bind ofTokens?

end LinearAssignment.Json
