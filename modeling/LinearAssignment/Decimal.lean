/-
Decimal text of integers, as lists of characters: no leading zeros, no plus sign, a minus sign
before the digits of a negative number. Reading gives back what was written.
-/

namespace LinearAssignment.Decimal

def ofNat (n : Nat) : List Char := Nat.toDigits 10 n

def ofInt : Int → List Char
  | .ofNat n => ofNat n
  | .negSucc n => '-' :: ofNat (n + 1)

/-- The number that a nonempty run of digits stands for; leading zeros are allowed. -/
def toNat? (s : List Char) : Option Nat :=
  if s ≠ [] ∧ s.all Char.isDigit then some (Nat.ofDigitChars 10 s 0) else none

/-- The integer that digits, or a minus sign and digits, stand for. -/
def toInt? : List Char → Option Int
  | '-' :: s => (toNat? s).map fun n => -(n : Int)
  | s => (toNat? s).map Int.ofNat

theorem isDigit_of_mem_ofNat {n : Nat} {c : Char} (h : c ∈ ofNat n) : c.isDigit = true :=
  Nat.isDigit_of_mem_toDigits (by omega) (by omega) h

theorem ofNat_ne_nil (n : Nat) : ofNat n ≠ [] := Nat.toDigits_ne_nil

@[simp] theorem toNat?_ofNat (n : Nat) : toNat? (ofNat n) = some n := by
  have hd : (ofNat n).all Char.isDigit = true :=
    List.all_eq_true.2 fun _ hc => isDigit_of_mem_ofNat hc
  simp only [toNat?, hd, and_true, ne_eq, ofNat_ne_nil, not_false_eq_true, if_true, Option.some.injEq]
  exact Nat.ofDigitChars_ten_toDigits

@[simp] theorem toInt?_ofInt (x : Int) : toInt? (ofInt x) = some x := by
  cases x with
  | ofNat n =>
    have hs : ∀ s, ofNat n ≠ '-' :: s := fun s h => by
      have := isDigit_of_mem_ofNat (h ▸ List.mem_cons_self : '-' ∈ ofNat n)
      revert this; decide
    simp only [ofInt]
    unfold toInt?
    split
    · next s h => exact absurd h (hs s)
    · simp
  | negSucc n => simp [ofInt, toInt?, Int.negSucc_eq]

end LinearAssignment.Decimal
