/-
Storage asked for by shape. Sizes are machine words, and the bytes of a storage are counted in words with a
sign. The product of two sizes may be checked, so that one beyond the words is a fault, or wrap around; the
storage is then too small for the shape it was asked for, and the matrix lacks cells.
-/
import LinearAssignment.Matrix.Basic

namespace LinearAssignment

/-- Sizes and positions are below this limit. -/
def sizeLimit : Nat := UInt64.size

/-- A storage has fewer cells than this: the number of its bytes fits a word with a sign, and there are eight
of them in a cell. -/
def cellLimit : Nat := sizeLimit / 2 / 8

/-- What becomes of a product of sizes beyond the limit. -/
inductive Arithmetic where
  | checked
  | wrapping
deriving DecidableEq, Repr

namespace Arithmetic

def product (a : Arithmetic) (x y : Nat) : Except Fault Nat :=
  if x * y < sizeLimit then .ok (x * y)
  else
    match a with
    | checked => .error .tooManyCells
    | wrapping => .ok (x * y % sizeLimit)

/-- The number of cells in a storage for the given shape. -/
def cellCount (a : Arithmetic) (rows cols : Nat) : Except Fault Nat := do
  let k ← a.product rows cols
  if k < cellLimit then return k else throw .tooManyCells

variable {a : Arithmetic} {rows cols k : Nat}

theorem product_of_cellCount (h : a.cellCount rows cols = .ok k) :
    a.product rows cols = .ok k ∧ k < cellLimit := by
  obtain ⟨p, hp, h⟩ := exists_of_bind_ok h
  split at h
  · next hlt =>
    cases h
    exact ⟨hp, hlt⟩
  · cases h

theorem eq_mul_of_cellCount (h : checked.cellCount rows cols = .ok k) :
    k = rows * cols ∧ rows * cols < cellLimit := by
  obtain ⟨hp, hlt⟩ := product_of_cellCount h
  unfold product at hp
  split at hp
  · cases hp
    exact ⟨rfl, hlt⟩
  · cases hp

theorem cellCount_of_lt_cellLimit (a : Arithmetic) (h : rows * cols < cellLimit) :
    a.cellCount rows cols = .ok (rows * cols) := by
  have hsize : rows * cols < sizeLimit := Nat.lt_trans h (by decide)
  unfold cellCount product
  rw [if_pos hsize]
  exact if_pos h

/-- A storage has as many cells as its shape only if their number is a size. -/
theorem eq_mul_iff_of_cellCount (h : a.cellCount rows cols = .ok k) :
    k = rows * cols ↔ rows * cols < sizeLimit := by
  have hp := (product_of_cellCount h).1
  unfold product at hp
  split at hp
  · next hlt => exact iff_of_true (Except.ok.inj hp).symm hlt
  · next hlt =>
    cases a with
    | checked => cases hp
    | wrapping =>
      obtain rfl := Except.ok.inj hp
      have hmod : rows * cols % sizeLimit < sizeLimit := Nat.mod_lt _ (by decide)
      exact iff_of_false (by omega) hlt

end Arithmetic

namespace Matrix

/-- The matrix of zeros of a shape, in a storage that has to be asked for. -/
def allocate (a : Arithmetic) (rows cols : Nat) : Except Fault Matrix :=
  (a.cellCount rows cols).map fun k => ⟨rows, cols, Array.replicate k 0⟩

variable {rows cols : Nat}

theorem allocate_of_lt_cellLimit (a : Arithmetic) (h : rows * cols < cellLimit) :
    allocate a rows cols = .ok (zeros rows cols) := by
  unfold allocate
  rw [a.cellCount_of_lt_cellLimit h]
  rfl

theorem exists_of_allocate {a : Arithmetic} {m : Matrix} (h : allocate a rows cols = .ok m) :
    ∃ k, a.cellCount rows cols = .ok k ∧ m = ⟨rows, cols, Array.replicate k 0⟩ := by
  obtain ⟨k, hk, hm⟩ := map_eq_ok.1 h
  exact ⟨k, hk, hm.symm⟩

/-- Where products are checked, there is a cell for every position. -/
theorem eq_zeros_of_allocate {m : Matrix} (h : allocate .checked rows cols = .ok m) :
    m = zeros rows cols ∧ rows * cols < cellLimit := by
  obtain ⟨k, hk, rfl⟩ := exists_of_allocate h
  obtain ⟨rfl, hlt⟩ := Arithmetic.eq_mul_of_cellCount hk
  exact ⟨rfl, hlt⟩

/-- Where products wrap around, those beyond the limit leave a matrix without all its cells. -/
theorem wellFormed_iff_of_allocate {a : Arithmetic} {m : Matrix} (h : allocate a rows cols = .ok m) :
    m.WellFormed ↔ rows * cols < sizeLimit := by
  obtain ⟨k, hk, rfl⟩ := exists_of_allocate h
  rw [← Arithmetic.eq_mul_iff_of_cellCount hk, WellFormed, Array.size_replicate]

/-- Asked for `2 ^ 64` cells: a fault, or no cells at all. -/
example : allocate .checked (2 ^ 32) (2 ^ 32) = .error .tooManyCells ∧
    allocate .wrapping (2 ^ 32) (2 ^ 32) = .ok ⟨2 ^ 32, 2 ^ 32, #[]⟩ := ⟨rfl, rfl⟩

end Matrix

end LinearAssignment
