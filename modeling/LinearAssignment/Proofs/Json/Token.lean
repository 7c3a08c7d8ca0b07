/-
Tokens and their texts. A text that falls into tokens falls into the same ones in front of another text,
if that one begins as what follows a value does: with a comma, the end of an array or object, or nothing.
-/
import LinearAssignment.Decimal
import LinearAssignment.Json.Token
import Mathlib.Data.List.DropRight

namespace LinearAssignment

/-! ## Decimal text -/

namespace Decimal

/-- A number that is not zero does not begin with a zero. -/
theorem ofNat_ne_zero_cons {n : Nat} (h : 0 < n) (l : List Char) : ofNat n ≠ '0' :: l := by
  induction n using Nat.strongRecOn generalizing l with
  | ind n ih =>
    intro e
    unfold ofNat at e
    rcases Nat.lt_or_ge n 10 with hn | hn
    · rw [Nat.toDigits_of_lt_base hn, List.cons.injEq, Nat.digitChar_eq_zero] at e
      omega
    · rw [Nat.toDigits_of_base_le (by decide) hn] at e
      cases hd : Nat.toDigits 10 (n / 10) with
      | nil => exact Nat.toDigits_ne_nil hd
      | cons c s =>
        rw [hd, List.cons_append, List.cons.injEq] at e
        exact ih (n / 10) (by omega) (by omega) s (hd.trans (by rw [e.1]))

theorem eq_nil_of_ofNat {n : Nat} {l : List Char} (h : ofNat n = '0' :: l) : l = [] := by
  rcases Nat.eq_zero_or_pos n with rfl | hn
  · rw [ofNat, Nat.toDigits_zero, List.cons.injEq] at h
    exact h.2.symm
  · exact absurd h (ofNat_ne_zero_cons hn l)

/-- What is written of a number begins with a digit. -/
theorem exists_cons_ofNat (n : Nat) : ∃ c l, ofNat n = c :: l ∧ c.isDigit = true := by
  obtain ⟨c, l, h⟩ := List.exists_cons_of_ne_nil (ofNat_ne_nil n)
  exact ⟨c, l, h, isDigit_of_mem_ofNat (h ▸ List.mem_cons_self)⟩

theorem exists_cons_ofInt (x : Int) : ∃ c l, ofInt x = c :: l ∧ (c = '-' ∨ c.isDigit = true) := by
  cases x with
  | ofNat n =>
    obtain ⟨c, l, h, hc⟩ := exists_cons_ofNat n
    exact ⟨c, l, h, .inr hc⟩
  | negSucc n => exact ⟨'-', ofNat (n + 1), rfl, .inl rfl⟩

/-- There is no negative zero. -/
theorem ofInt_ne_neg_zero (x : Int) : ofInt x ≠ ['-', '0'] := by
  cases x with
  | ofNat n =>
    obtain ⟨c, l, h, hc⟩ := exists_cons_ofNat n
    rintro e
    cases h.symm.trans e
    cases hc
  | negSucc n =>
    rintro e
    exact ofNat_ne_zero_cons (Nat.succ_pos n) [] (List.cons.inj e).2

end Decimal

namespace Json

/-- What may follow a value: a comma, the end of an array or object, or nothing. -/
inductive Delimited : List Char → Prop
  | done : Delimited []
  | comma (s : List Char) : Delimited (',' :: s)
  | closeArray (s : List Char) : Delimited (']' :: s)
  | closeObject (s : List Char) : Delimited ('\x7d' :: s)

/-! ## Numbers -/

namespace Number

theorem integer?_ofNat (n : Nat) : integer? (Decimal.ofNat n) = some (Decimal.ofNat n, []) := by
  have hdigits : digits? (Decimal.ofNat n) = some (Decimal.ofNat n, []) := by
    have hd : ∀ c ∈ Decimal.ofNat n, c.isDigit = true := fun _ => Decimal.isDigit_of_mem_ofNat
    rw [digits?, List.takeWhile_eq_self_iff.2 hd, List.dropWhile_eq_nil_iff.2 hd,
      if_neg (Decimal.ofNat_ne_nil n)]
  unfold integer?
  rw [hdigits]
  split
  · next c s _ e =>
    -- a second digit after a zero is not written
    have hnil := Decimal.eq_nil_of_ofNat (Prod.mk.inj (Option.some.inj e)).1
    cases hnil
  · rfl

theorem scan_ofInt (x : Int) : scan (Decimal.ofInt x) = some (Decimal.ofInt x, []) := by
  cases x with
  | ofNat n =>
    have hsign : sign (Decimal.ofNat n) = ([], Decimal.ofNat n) := by
      obtain ⟨c, l, hl, hc⟩ := Decimal.exists_cons_ofNat n
      unfold sign
      split
      · next s e =>
        cases hl.symm.trans e
        cases hc
      · rfl
    simp [scan, Decimal.ofInt, hsign, integer?_ofNat, fraction?, exponent?]
  | negSucc n => simp [scan, Decimal.ofInt, sign, integer?_ofNat, fraction?, exponent?]

/-- A number begins with a minus sign or a digit. -/
theorem exists_cons_of_scan {s : List Char} {p : List Char × List Char} (h : scan s = some p) :
    ∃ c l, s = c :: l ∧ (c = '-' ∨ c.isDigit = true) := by
  cases s with
  | nil => cases h
  | cons c l =>
    refine ⟨c, l, rfl, or_iff_not_imp_left.2 fun hc => ?_⟩
    by_contra hd
    simp [scan, sign, hc, integer?, digits?, hd] at h

/-! ### In front of another text -/

section
variable {rest : List Char} (hr : Delimited rest)
include hr

theorem sign_append_rest (s : List Char) : sign (s ++ rest) = ((sign s).1, (sign s).2 ++ rest) := by
  cases s with
  | nil => cases hr <;> rfl
  | cons c s =>
    by_cases hc : c = '-'
    · subst hc
      rfl
    · simp [sign, hc]

theorem digits?_append_rest (s : List Char) :
    digits? (s ++ rest) = (digits? s).map fun p => (p.1, p.2 ++ rest) := by
  have hsplit : (s ++ rest).takeWhile Char.isDigit = s.takeWhile Char.isDigit ∧
      (s ++ rest).dropWhile Char.isDigit = s.dropWhile Char.isDigit ++ rest := by
    induction s with
    | nil => cases hr <;> exact ⟨rfl, rfl⟩
    | cons c s ih =>
      rw [List.cons_append]
      cases hc : c.isDigit <;> simp [hc, ih]
  unfold digits?
  rw [hsplit.1, hsplit.2]
  split <;> rfl

theorem integer?_append_rest (s : List Char) :
    integer? (s ++ rest) = (integer? s).map fun p => (p.1, p.2 ++ rest) := by
  unfold integer?
  rw [digits?_append_rest hr]
  cases digits? s with
  | none => rfl
  | some p => rcases p with ⟨_ | ⟨c, _ | ⟨d, l⟩⟩, q⟩ <;> grind

theorem fraction?_append_rest (s : List Char) :
    fraction? (s ++ rest) = (fraction? s).map fun p => (p.1, p.2 ++ rest) := by
  cases s with
  | nil => cases hr <;> rfl
  | cons c s =>
    by_cases hc : c = '.'
    · subst hc
      simp [fraction?, digits?_append_rest hr, Function.comp_def]
    · simp [fraction?, hc]

theorem exponentSign_append_rest (s : List Char) :
    exponentSign (s ++ rest) = ((exponentSign s).1, (exponentSign s).2 ++ rest) := by
  unfold exponentSign
  cases s with
  | nil => cases hr <;> rfl
  | cons c s =>
    rw [List.cons_append]
    split <;> simp_all

theorem exponent?_append_rest (s : List Char) :
    exponent? (s ++ rest) = (exponent? s).map fun p => (p.1, p.2 ++ rest) := by
  unfold exponent?
  cases s with
  | nil => cases hr <;> rfl
  | cons c s =>
    rw [List.cons_append]
    simp only [exponentSign_append_rest hr, digits?_append_rest hr]
    split <;> simp [Function.comp_def]

/-- A number ends where it ends in front of another text too. -/
theorem scan_append_rest (s : List Char) : scan (s ++ rest) = (scan s).map fun p => (p.1, p.2 ++ rest) := by
  unfold scan
  simp only [sign_append_rest hr, integer?_append_rest hr]
  cases integer? (sign s).2 with
  | none => rfl
  | some i =>
    simp only [Option.map_some, Option.bind_eq_bind, Option.bind_some, fraction?_append_rest hr]
    cases fraction? i.2 with
    | none => rfl
    | some f =>
      simp only [Option.map_some, Option.bind_some, exponent?_append_rest hr]
      cases exponent? f.2 <;> rfl

end

end Number

/-! ## Strings -/

namespace Literal

/-- A character that stands for itself between quotes; those beyond ASCII are left aside. -/
def isPlain (c : Char) : Bool := ' ' ≤ c && c != '"' && c != '\\' && c.toNat < 0x80

theorem isPlain_iff {c : Char} :
    isPlain c = true ↔ ' ' ≤ c ∧ c ≠ '"' ∧ c ≠ '\\' ∧ c.toNat < 0x80 := by
  simp [isPlain, and_assoc]

theorem isPlain_of_isDigit {c : Char} (h : c.isDigit = true) : isPlain c = true := by
  simp only [Char.isDigit, Bool.and_eq_true, decide_eq_true_eq, UInt32.le_iff_toNat_le, ge_iff_le] at h
  have hlow : 48 ≤ c.toNat := h.1
  have hhigh : c.toNat ≤ 57 := h.2
  refine isPlain_iff.2 ⟨?_, ?_, ?_, by omega⟩
  · rw [Char.le_def, UInt32.le_iff_toNat_le]
    exact Nat.le_trans (by decide) hlow
  · rintro rfl
    exact absurd hlow (by decide)
  · rintro rfl
    exact absurd hhigh (by decide)

variable {t : List Char}

theorem scan_plain (h : ∀ c ∈ t, isPlain c = true) (rest : List Char) :
    scan (t ++ '"' :: rest) = some (t, rest) := by
  induction t with
  | nil => rfl
  | cons c t ih =>
    obtain ⟨hc, ht⟩ := List.forall_mem_cons.1 h
    obtain ⟨hblank, hquote, hslash, -⟩ := isPlain_iff.1 hc
    rw [List.cons_append, scan]
    · rw [if_neg (not_or.2 ⟨Char.not_lt.2 hblank, hslash⟩), ih ht]
      rfl
    · exact hquote
    · exact fun _ _ _ _ _ e => absurd e hslash
    · exact fun _ _ e => absurd e hslash

theorem codePoints?_plain (h : ∀ c ∈ t, isPlain c = true) : codePoints? t = some (t.map Char.toNat) := by
  induction t with
  | nil => rfl
  | cons c t ih =>
    obtain ⟨hc, ht⟩ := List.forall_mem_cons.1 h
    have hslash := (isPlain_iff.1 hc).2.2.1
    rw [codePoints?]
    · rw [ih ht]
      rfl
    · exact fun _ _ _ _ _ e => absurd e hslash
    · exact fun _ _ e => absurd e hslash

theorem joinSurrogates?_plain (h : ∀ c ∈ t, isPlain c = true) :
    joinSurrogates? (t.map Char.toNat) = some t := by
  induction t with
  | nil => rfl
  | cons c t ih =>
    obtain ⟨hc, ht⟩ := List.forall_mem_cons.1 h
    have hhigh : isHighSurrogate c.toNat = false := by
      have := (isPlain_iff.1 hc).2.2.2
      simp only [isHighSurrogate, Bool.and_eq_false_iff, decide_eq_false_iff_not]
      omega
    have hlow : isLowSurrogate c.toNat = false := by
      have := (isPlain_iff.1 hc).2.2.2
      simp only [isLowSurrogate, Bool.and_eq_false_iff, decide_eq_false_iff_not]
      omega
    cases t with
    | nil => simp [joinSurrogates?, hhigh, hlow]
    | cons d t =>
      have hrest : joinSurrogates? (d.toNat :: t.map Char.toNat) = some (d :: t) := ih ht
      simp [joinSurrogates?, hhigh, hlow, hrest]

/-- A plain text stands for itself. -/
theorem decode?_plain (h : ∀ c ∈ t, isPlain c = true) : decode? t = some t := by
  unfold decode?
  rw [codePoints?_plain h, Option.bind_some, joinSurrogates?_plain h]

/-- A string ends where it ends, whatever comes after it. -/
theorem scan_append {s : List Char} {p : List Char × List Char} (h : scan s = some p) (rest : List Char) :
    scan (s ++ rest) = some (p.1, p.2 ++ rest) := by
  fun_induction scan s generalizing p with
  | case1 => cases h
  | case2 s => cases h; rfl
  | case3 a b c d s hunit ih =>
    obtain ⟨q, hq, rfl⟩ := Option.map_eq_some_iff.1 h
    simp [scan, hunit, ih hq]
  | case4 => cases h
  | case5 c s hunicode hescape ih =>
    obtain ⟨q, hq, rfl⟩ := Option.map_eq_some_iff.1 h
    have hu : c ≠ 'u' := by
      rintro rfl
      cases hescape
    rw [List.cons_append, List.cons_append, scan]
    · rw [if_pos hescape, ih hq]
      rfl
    · exact fun _ _ _ _ _ e => absurd e hu
  | case6 => cases h
  | case7 => cases h
  | case8 c s hquote hunicode hescape hplain ih =>
    obtain ⟨q, hq, rfl⟩ := Option.map_eq_some_iff.1 h
    rw [List.cons_append, scan]
    · rw [if_neg hplain, ih hq]
      rfl
    · exact hquote
    · exact fun _ _ _ _ _ e => absurd e (not_or.1 hplain).2
    · exact fun _ _ e => absurd e (not_or.1 hplain).2

end Literal

/-! ## Tokens -/

namespace Token

variable {s rest : List Char}

theorem next?_cons_of_number {c : Char} (hc : c = '-' ∨ c.isDigit = true) (s : List Char) :
    next? (c :: s) = (Number.scan (c :: s)).map fun p => (number p.1, p.2) := by
  rw [next?]
  -- no other token begins like a number
  all_goals
    rintro _ e
    cases e
    exact absurd hc (by decide)

theorem next?_ofInt (x : Int) : next? (Decimal.ofInt x) = some (number (Decimal.ofInt x), []) := by
  have hscan := Number.scan_ofInt x
  obtain ⟨c, l, hx, hc⟩ := Number.exists_cons_of_scan hscan
  rw [hx] at hscan ⊢
  rw [next?_cons_of_number hc, hscan, Option.map_some]

theorem next?_quoted {t : List Char} (h : ∀ c ∈ t, Literal.isPlain c = true) (rest : List Char) :
    next? ('"' :: t ++ '"' :: rest) = some (string t, rest) := by
  rw [List.cons_append, next?, Literal.scan_plain h, Option.map_some]

theorem next?_append_rest {p : Token × List Char} (h : next? s = some p) (hr : Delimited rest) :
    next? (s ++ rest) = some (p.1, p.2 ++ rest) := by
  unfold next? at h
  split at h
  case h_10 s =>
    obtain ⟨q, hq, rfl⟩ := Option.map_eq_some_iff.1 h
    rw [List.cons_append, next?, Literal.scan_append hq, Option.map_some]
  case h_11 =>
    obtain ⟨q, hq, rfl⟩ := Option.map_eq_some_iff.1 h
    obtain ⟨c, l, rfl, hc⟩ := Number.exists_cons_of_scan hq
    rw [List.cons_append, next?_cons_of_number hc, ← List.cons_append, Number.scan_append_rest hr, hq,
      Option.map_some, Option.map_some]
  all_goals
    cases h
    rfl

/-- A token is cut off only where there is no blank. -/
theorem dropWhile_isBlank {p : Token × List Char} (h : next? s = some p) : s.dropWhile isBlank = s := by
  cases s with
  | nil => rfl
  | cons c s =>
    cases hc : isBlank c
    · exact List.dropWhile_cons_of_neg (by simp [hc])
    · simp only [isBlank, Bool.or_eq_true, beq_iff_eq] at hc
      rcases hc with ((rfl | rfl) | rfl) | rfl <;> cases h

/-! ### The tokens of a text -/

theorem list?_dropWhile_isBlank (s : List Char) : list? (s.dropWhile isBlank) = list? s := by
  rw [list?, list?, List.dropWhile_idempotent]

theorem list?_of_next? {p : Token × List Char} (h : next? s = some p) :
    list? s = (list? p.2).map (p.1 :: ·) := by
  have hne : s ≠ [] := by
    rintro rfl
    cases h
  rw [list?, dropWhile_isBlank h, if_neg hne]
  split
  · next e => cases h.symm.trans e
  · next q e => cases h.symm.trans e; rfl

/-- A text falls into the same tokens in front of another text. -/
theorem list?_append_rest {ts : List Token} (h : list? s = some ts) (hr : Delimited rest) :
    list? (s ++ rest) = (list? rest).map (ts ++ ·) := by
  fun_induction list? s generalizing ts with
  | case1 s hs =>
    cases h
    have hblank : (s ++ rest).dropWhile isBlank = rest.dropWhile isBlank := by
      rw [List.dropWhile_append, hs, List.isEmpty_nil, if_pos rfl]
    rw [← list?_dropWhile_isBlank, hblank, list?_dropWhile_isBlank]
    simp
  | case2 => cases h
  | case3 s hs p hp ih =>
    obtain ⟨ts, hts, rfl⟩ := Option.map_eq_some_iff.1 h
    have hblank : (s ++ rest).dropWhile isBlank = s.dropWhile isBlank ++ rest := by
      rw [List.dropWhile_append, if_neg (by simpa using hs)]
    rw [← list?_dropWhile_isBlank, hblank, list?_of_next? (next?_append_rest hp hr), ih hts]
    simp [Function.comp_def]

end Token

end Json

end LinearAssignment
