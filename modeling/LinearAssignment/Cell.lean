/-
Cells: the 64-bit signed integers a matrix holds, with exact passage from and to the integers.
Arithmetic on cells is done on their values; a result becomes a cell again only through `ofInt?`,
which refuses what does not fit, or `capped`, which reports it as the greatest cell.
-/

namespace LinearAssignment

/-- The content of one cell: an integer from `-2^63` up to `2^63 - 1`. -/
abbrev Cell := Int64

namespace Cell

/-- The cell of value `x`, if `x` fits. -/
def ofInt? (x : Int) : Option Cell :=
  if h : Int64.minValue.toInt ≤ x ∧ x ≤ Int64.maxValue.toInt then
    some (Int64.ofIntLE x h.1 h.2)
  else none

/-- The cell of value `x`, or the greatest cell if `x` does not fit. -/
def capped (x : Int) : Cell := (ofInt? x).getD Int64.maxValue

theorem ofInt?_eq_some_iff {x : Int} {c : Cell} : ofInt? x = some c ↔ c.toInt = x := by
  unfold ofInt?
  split
  · next h =>
    constructor
    · intro hs; rw [← Option.some.inj hs, Int64.toInt_ofIntLE]
    · intro hv; rw [Option.some.injEq, ← Int64.toInt_inj, Int64.toInt_ofIntLE, hv]
  · next h =>
    constructor
    · intro hs; cases hs
    · intro hv; exact absurd ⟨hv ▸ Int64.minValue_le_toInt c, hv ▸ Int64.toInt_le c⟩ h

/-- Exactly the numbers outside the range of the cells have no cell. -/
theorem ofInt?_eq_none_iff {x : Int} :
    ofInt? x = none ↔ ¬ (Int64.minValue.toInt ≤ x ∧ x ≤ Int64.maxValue.toInt) := by
  unfold ofInt?
  split
  · next h => exact iff_of_false (fun hn => by cases hn) fun hn => hn h
  · next h => exact iff_of_true rfl h

@[simp] theorem ofInt?_toInt (c : Cell) : ofInt? c.toInt = some c := ofInt?_eq_some_iff.2 rfl

@[simp] theorem capped_toInt (c : Cell) : capped c.toInt = c := by simp [capped]

theorem toInt_capped_of_fits {x : Int}
    (h : Int64.minValue.toInt ≤ x ∧ x ≤ Int64.maxValue.toInt) : (capped x).toInt = x := by
  unfold capped
  cases hx : ofInt? x with
  | none => exact absurd h (ofInt?_eq_none_iff.1 hx)
  | some c => exact ofInt?_eq_some_iff.1 hx

/-! ## Numbers that are not negative -/

/-- Of the numbers that are not negative, those above the greatest cell have no cell. -/
theorem ofInt?_eq_none_iff_of_nonneg {x : Int} (h : 0 ≤ x) :
    ofInt? x = none ↔ Int64.maxValue.toInt < x := by
  have hmin : Int64.minValue.toInt ≤ x := Int.le_trans (by decide) h
  rw [ofInt?_eq_none_iff, and_iff_right hmin, Int.not_le]

theorem toInt_capped {x : Int} (h : 0 ≤ x) : (capped x).toInt = min x Int64.maxValue.toInt := by
  unfold capped
  cases hx : ofInt? x with
  | none => exact (Int.min_eq_right (Int.le_of_lt ((ofInt?_eq_none_iff_of_nonneg h).1 hx))).symm
  | some c =>
    have hc := ofInt?_eq_some_iff.1 hx
    rw [Option.getD_some, ← hc, Int.min_eq_left (Int64.toInt_le c)]

end Cell

end LinearAssignment
