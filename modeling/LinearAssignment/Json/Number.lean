/-
JSON numbers as they are written: an optional minus sign, digits without a needless leading zero, an
optional fraction and an optional exponent.
-/

namespace LinearAssignment.Json.Number

/-- Splits off the sign, which may be missing. -/
def sign : List Char → List Char × List Char
  | '-' :: s => (['-'], s)
  | s => ([], s)

/-- Splits off the digits in front, of which there has to be one. -/
def digits? (s : List Char) : Option (List Char × List Char) :=
  if s.takeWhile Char.isDigit = [] then none
  else some (s.takeWhile Char.isDigit, s.dropWhile Char.isDigit)

/-- Splits off the integer part: digits, and a single one if it is a zero. -/
def integer? (s : List Char) : Option (List Char × List Char) :=
  match digits? s with
  | some ('0' :: _ :: _, _) => none
  | p => p

/-- Splits off the fraction, which may be missing. -/
def fraction? : List Char → Option (List Char × List Char)
  | '.' :: s => (digits? s).map fun p => ('.' :: p.1, p.2)
  | s => some ([], s)

/-- Splits off the sign of an exponent, which may be missing. -/
def exponentSign : List Char → List Char × List Char
  | '+' :: s => (['+'], s)
  | '-' :: s => (['-'], s)
  | s => ([], s)

/-- Splits off the exponent, which may be missing. -/
def exponent? : List Char → Option (List Char × List Char)
  | [] => some ([], [])
  | c :: s =>
    if c = 'e' ∨ c = 'E' then
      (digits? (exponentSign s).2).map fun p => (c :: (exponentSign s).1 ++ p.1, p.2)
    else some ([], c :: s)

/-- Splits off the longest number in front. -/
def scan (s : List Char) : Option (List Char × List Char) := do
  let i ← integer? (sign s).2
  let f ← fraction? i.2
  let e ← exponent? f.2
  return ((sign s).1 ++ i.1 ++ f.1 ++ e.1, e.2)

/-! ## Nothing is lost -/

theorem sign_append (s : List Char) : (sign s).1 ++ (sign s).2 = s := by
  unfold sign; split <;> rfl

theorem exponentSign_append (s : List Char) : (exponentSign s).1 ++ (exponentSign s).2 = s := by
  unfold exponentSign; split <;> rfl

theorem eq_of_digits? {s : List Char} {p : List Char × List Char} (h : digits? s = some p) :
    s = p.1 ++ p.2 ∧ p.1 ≠ [] := by
  unfold digits? at h
  split at h
  · cases h
  · next hne => cases h; exact ⟨List.takeWhile_append_dropWhile.symm, hne⟩

theorem eq_of_integer? {s : List Char} {p : List Char × List Char} (h : integer? s = some p) :
    s = p.1 ++ p.2 ∧ p.1 ≠ [] := by
  unfold integer? at h
  split at h
  · cases h
  · exact eq_of_digits? h

theorem eq_of_fraction? {s : List Char} {p : List Char × List Char} (h : fraction? s = some p) :
    s = p.1 ++ p.2 := by
  unfold fraction? at h
  split at h
  · obtain ⟨q, hq, rfl⟩ := Option.map_eq_some_iff.1 h
    rw [(eq_of_digits? hq).1]; rfl
  · cases h; rfl

theorem eq_of_exponent? {s : List Char} {p : List Char × List Char} (h : exponent? s = some p) :
    s = p.1 ++ p.2 := by
  unfold exponent? at h
  split at h
  · cases h; rfl
  · next c s =>
    split at h
    · obtain ⟨q, hq, rfl⟩ := Option.map_eq_some_iff.1 h
      have hs := exponentSign_append s
      rw [(eq_of_digits? hq).1] at hs
      rw [List.append_assoc, List.cons_append, hs]
    · cases h; rfl

theorem eq_of_scan {s : List Char} {p : List Char × List Char} (h : scan s = some p) :
    s = p.1 ++ p.2 ∧ p.1 ≠ [] := by
  unfold scan at h
  obtain ⟨i, hi, h⟩ := Option.bind_eq_some_iff.1 h
  obtain ⟨f, hf, h⟩ := Option.bind_eq_some_iff.1 h
  obtain ⟨e, he, h⟩ := Option.bind_eq_some_iff.1 h
  cases h
  have hs := sign_append s
  rw [(eq_of_integer? hi).1, eq_of_fraction? hf, eq_of_exponent? he] at hs
  exact ⟨by simp only [List.append_assoc, hs], by simp [(eq_of_integer? hi).2]⟩

end LinearAssignment.Json.Number
