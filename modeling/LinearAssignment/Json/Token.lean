/-
The tokens of JSON text. A text is cut into tokens from the left, blanks between them are dropped,
and every token is as long as it can be.
-/
import LinearAssignment.Json.Literal
import LinearAssignment.Json.Number

namespace LinearAssignment.Json

inductive Token where
  | openArray
  | closeArray
  | openObject
  | closeObject
  | colon
  | comma
  | null
  | bool (b : Bool)
  | number (text : List Char)
  | string (text : List Char)
deriving DecidableEq, Repr

namespace Token

/-- The token as it is written. -/
def text : Token → List Char
  | openArray => ['[']
  | closeArray => [']']
  | openObject => ['\x7b']
  | closeObject => ['\x7d']
  | colon => [':']
  | comma => [',']
  | null => ['n', 'u', 'l', 'l']
  | bool true => ['t', 'r', 'u', 'e']
  | bool false => ['f', 'a', 'l', 's', 'e']
  | number t => t
  | string t => '"' :: t ++ ['"']

/-- Splits off the token in front. -/
def next? : List Char → Option (Token × List Char)
  | '[' :: s => some (openArray, s)
  | ']' :: s => some (closeArray, s)
  | '\x7b' :: s => some (openObject, s)
  | '\x7d' :: s => some (closeObject, s)
  | ':' :: s => some (colon, s)
  | ',' :: s => some (comma, s)
  | 'n' :: 'u' :: 'l' :: 'l' :: s => some (null, s)
  | 't' :: 'r' :: 'u' :: 'e' :: s => some (bool true, s)
  | 'f' :: 'a' :: 'l' :: 's' :: 'e' :: s => some (bool false, s)
  | '"' :: s => (Literal.scan s).map fun p => (string p.1, p.2)
  | s => (Number.scan s).map fun p => (number p.1, p.2)

/-- The blanks that may stand between tokens. -/
def isBlank (c : Char) : Bool := c == ' ' || c == '\t' || c == '\n' || c == '\r'

theorem eq_of_next? {s : List Char} {p : Token × List Char} (h : next? s = some p) :
    s = p.1.text ++ p.2 ∧ p.1.text ≠ [] := by
  unfold next? at h
  split at h
  case h_10 s =>
    obtain ⟨q, hq, rfl⟩ := Option.map_eq_some_iff.1 h
    exact ⟨by simp [text, Literal.eq_of_scan hq], by simp [text]⟩
  case h_11 =>
    obtain ⟨q, hq, rfl⟩ := Option.map_eq_some_iff.1 h
    exact Number.eq_of_scan hq
  all_goals cases h; exact ⟨rfl, by simp [text]⟩

theorem length_lt_of_next? {s : List Char} {p : Token × List Char} (h : next? s = some p) :
    p.2.length < s.length := by
  obtain ⟨hs, hne⟩ := eq_of_next? h
  have := List.length_pos_iff.2 hne
  rw [hs, List.length_append]; omega

/-- The tokens of a text. -/
def list? (s : List Char) : Option (List Token) :=
  if s.dropWhile isBlank = [] then some []
  else
    match _found : next? (s.dropWhile isBlank) with
    | none => none
    | some p => (list? p.2).map (p.1 :: ·)
termination_by s.length
decreasing_by
  have := length_lt_of_next? _found
  have := (List.dropWhile_sublist isBlank (l := s)).length_le
  omega

end Token

end LinearAssignment.Json
