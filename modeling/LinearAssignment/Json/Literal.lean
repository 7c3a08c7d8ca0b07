/-
JSON strings as they are written between their quotes: where such a text ends, and which characters
it stands for. Escapes with four hexadecimal digits name UTF-16 code units; a character beyond the
first 65536 takes a pair of them. A text with an unpaired half is still a JSON string, but stands
for no characters.
-/

namespace LinearAssignment.Json.Literal

/-- The value of a hexadecimal digit. -/
def hexDigit? (c : Char) : Option Nat :=
  if c.isDigit then some (c.toNat - '0'.toNat)
  else if 'a' ≤ c ∧ c ≤ 'f' then some (c.toNat - 'a'.toNat + 10)
  else if 'A' ≤ c ∧ c ≤ 'F' then some (c.toNat - 'A'.toNat + 10)
  else none

/-- The code unit that four hexadecimal digits name. -/
def codeUnit? (a b c d : Char) : Option Nat := do
  let a ← hexDigit? a
  let b ← hexDigit? b
  let c ← hexDigit? c
  let d ← hexDigit? d
  return ((a * 16 + b) * 16 + c) * 16 + d

/-- The character that a backslash and `c` stand for. -/
def escaped? (c : Char) : Option Char :=
  match c with
  | '"' => some '"'
  | '\\' => some '\\'
  | '/' => some '/'
  | 'b' => some '\x08'
  | 'f' => some '\x0c'
  | 'n' => some '\n'
  | 'r' => some '\r'
  | 't' => some '\t'
  | _ => none

/-- Splits the text after an opening quote at the closing one. Control characters have to be
escaped, and a backslash has to begin an escape. -/
def scan : List Char → Option (List Char × List Char)
  | [] => none
  | '"' :: s => some ([], s)
  | '\\' :: 'u' :: a :: b :: c :: d :: s =>
    if (codeUnit? a b c d).isSome then
      (scan s).map fun p => ('\\' :: 'u' :: a :: b :: c :: d :: p.1, p.2)
    else none
  | '\\' :: c :: s =>
    if (escaped? c).isSome then (scan s).map fun p => ('\\' :: c :: p.1, p.2) else none
  | c :: s => if c < ' ' ∨ c = '\\' then none else (scan s).map fun p => (c :: p.1, p.2)

/-- The code points of a text, where an escape with four digits counts as the code unit it names. -/
def codePoints? : List Char → Option (List Nat)
  | [] => some []
  | '\\' :: 'u' :: a :: b :: c :: d :: s => do return (← codeUnit? a b c d) :: (← codePoints? s)
  | '\\' :: c :: s => do return (← escaped? c).toNat :: (← codePoints? s)
  | c :: s => (codePoints? s).map (c.toNat :: ·)

/-- Whether `n` is the first half of a surrogate pair. -/
def isHighSurrogate (n : Nat) : Bool := 0xD800 ≤ n && n ≤ 0xDBFF

/-- Whether `n` is the second half of a surrogate pair. -/
def isLowSurrogate (n : Nat) : Bool := 0xDC00 ≤ n && n ≤ 0xDFFF

/-- Joins the halves of surrogate pairs; an unpaired half is refused. -/
def joinSurrogates? : List Nat → Option (List Char)
  | [] => some []
  | [n] => if isHighSurrogate n || isLowSurrogate n then none else some [Char.ofNat n]
  | n :: m :: s =>
    if isHighSurrogate n then
      if isLowSurrogate m then
        (joinSurrogates? s).map (Char.ofNat (0x10000 + (n - 0xD800) * 0x400 + (m - 0xDC00)) :: ·)
      else none
    else if isLowSurrogate n then none
    else (joinSurrogates? (m :: s)).map (Char.ofNat n :: ·)

/-- The characters that a text between quotes stands for. -/
def decode? (s : List Char) : Option (List Char) := (codePoints? s).bind joinSurrogates?

/-- Scanning cuts the text at the closing quote and loses nothing. -/
theorem eq_of_scan {s : List Char} {p : List Char × List Char} (h : scan s = some p) :
    s = p.1 ++ '"' :: p.2 := by
  fun_induction scan s generalizing p with
  | case1 => cases h
  | case2 s => cases h; rfl
  | case3 a b c d s _ ih =>
    obtain ⟨q, hq, rfl⟩ := Option.map_eq_some_iff.1 h
    rw [ih hq]; rfl
  | case4 => cases h
  | case5 c s _ _ ih =>
    obtain ⟨q, hq, rfl⟩ := Option.map_eq_some_iff.1 h
    rw [ih hq]; rfl
  | case6 => cases h
  | case7 => cases h
  | case8 c s _ _ _ _ ih =>
    obtain ⟨q, hq, rfl⟩ := Option.map_eq_some_iff.1 h
    rw [ih hq]; rfl

end LinearAssignment.Json.Literal
