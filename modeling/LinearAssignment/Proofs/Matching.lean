/-
Consistent matchings: the columns of the rows and the rows of the columns say the same, and the
root is empty. The greedy matching is consistent and holds admitted positions only; in it every row
holds the lowest admitted column that no earlier row holds. A consistent matching of all rows is a
permutation.
-/
import LinearAssignment.Matching
import Mathlib.Data.Finset.Filter
import Mathlib.Data.Fintype.Basic
import Mathlib.Data.Fintype.EquivFin
import Mathlib.Data.Set.Finite.Basic
import Mathlib.Order.Bounds.Basic
import Mathlib.Order.Preorder.Finite

namespace LinearAssignment

/-! ## Numbers in ascending order -/

section
variable {n : Nat}

/-- The first number in ascending order for which `q` holds is the least one. -/
theorem find?_finRange_eq_some_iff {q : Fin n → Bool} {j : Fin n} :
    (List.finRange n).find? q = some j ↔ IsLeast {k | q k = true} j := by
  have hleast : ∀ k, (List.finRange n).find? q = some k → IsLeast {k | q k = true} k := by
    intro k hk
    obtain ⟨hq, before, after, hl, hbefore⟩ := List.find?_eq_some_iff_append.1 hk
    refine ⟨hq, fun i (hi : q i = true) => ?_⟩
    have hmem := List.mem_finRange i
    have hlt := List.pairwise_lt_finRange n
    rw [hl] at hmem hlt
    rcases List.mem_append.1 hmem with hib | hik
    · have hno := hbefore i hib
      rw [hi] at hno
      cases hno
    · rcases List.mem_cons.1 hik with rfl | hia
      · exact le_rfl
      · exact (List.rel_of_pairwise_cons (List.pairwise_append.1 hlt).2.1 hia).le
  constructor
  · exact hleast j
  · intro h
    cases hf : (List.finRange n).find? q with
    | none => exact absurd h.1 (List.find?_eq_none.1 hf j (List.mem_finRange j))
    | some k => rw [(hleast k hf).unique h]

/-- A loop over all numbers in ascending order, each step of which leads from one motive to the next. -/
theorem foldl_finRange_of_step {σ : Type} {motive : Nat → σ → Prop} {step : σ → Fin n → σ} {s : σ}
    (h0 : motive 0 s) (hstep : ∀ (i : Fin n) (s : σ), motive i s → motive (i + 1) (step s i)) :
    motive n ((List.finRange n).foldl step s) := by
  have htake : ∀ k ≤ n, motive k (((List.finRange n).take k).foldl step s) := by
    intro k
    induction k with
    | zero => exact fun _ => h0
    | succ k ih =>
      intro hk
      have hget : (List.finRange n)[k]? = some ⟨k, hk⟩ := by
        rw [List.getElem?_eq_getElem (by rwa [List.length_finRange]), List.getElem_finRange]
        rfl
      rw [List.take_add_one, hget, List.foldl_append]
      exact hstep ⟨k, hk⟩ _ (ih (Nat.le_of_succ_le hk))
  have hn := htake n (Nat.le_refl n)
  rwa [List.take_of_length_le (Nat.le_of_eq List.length_finRange)] at hn

end

namespace Matching

variable {n : Nat}

/-! ## Consistency -/

/-- The two sides say the same, and the root is empty. -/
structure Consistent (m : Matching n) : Prop where
  agree : ∀ i j : Fin n, m.colOf.get i = some j ↔ m.rowOf.get j = some i
  root : m.rootRow = none

theorem Consistent.col_unique {m : Matching n} (h : m.Consistent) {i j k : Fin n}
    (hj : m.rowOf.get j = some i) (hk : m.rowOf.get k = some i) : j = k := by
  rw [← h.agree] at hj hk
  exact Option.some.inj (hj.symm.trans hk)

theorem Consistent.rowOf_ne {m : Matching n} (h : m.Consistent) {i : Fin n} (hi : m.colOf.get i = none)
    (k : Fin n) : m.rowOf.get k ≠ some i := by
  intro hk
  rw [← h.agree, hi] at hk
  cases hk

/-- The rows that have a column. -/
def matchedRows (m : Matching n) : Finset (Fin n) := Finset.univ.filter fun i => (m.colOf.get i).isSome

/-- The columns that have a row. -/
def matchedCols (m : Matching n) : Finset (Fin n) := Finset.univ.filter fun j => (m.rowOf.get j).isSome

theorem mem_matchedRows {m : Matching n} {i : Fin n} :
    i ∈ m.matchedRows ↔ ∃ j, m.colOf.get i = some j := by
  simp [matchedRows, Option.isSome_iff_exists]

theorem mem_matchedCols {m : Matching n} {j : Fin n} :
    j ∈ m.matchedCols ↔ ∃ i, m.rowOf.get j = some i := by
  simp [matchedCols, Option.isSome_iff_exists]

theorem not_mem_matchedRows {m : Matching n} {i : Fin n} :
    i ∉ m.matchedRows ↔ m.colOf.get i = none := by
  simp [matchedRows]

theorem not_mem_matchedCols {m : Matching n} {j : Fin n} :
    j ∉ m.matchedCols ↔ m.rowOf.get j = none := by
  simp [matchedCols]

theorem mem_freeRows {m : Matching n} {i : Fin n} : i ∈ m.freeRows ↔ i ∉ m.matchedRows := by
  simp [freeRows, matchedRows]

/-- A consistent matching of all rows is a permutation. -/
theorem Consistent.exists_perm {m : Matching n} (h : m.Consistent) (hall : ∀ i, i ∈ m.matchedRows) :
    ∃ σ : Equiv.Perm (Fin n), ∀ i, m.colOf.get i = some (σ i) := by
  choose f hf using fun i => mem_matchedRows.1 (hall i)
  have hinj : Function.Injective f := by
    intro a b hab
    have ha := (h.agree a (f a)).1 (hf a)
    have hb := (h.agree b (f b)).1 (hf b)
    rw [hab, hb] at ha
    exact (Option.some.inj ha).symm
  exact ⟨Equiv.ofBijective f (Finite.injective_iff_bijective.1 hinj), hf⟩

/-! ## Greedy growth -/

theorem empty_consistent : (empty : Matching n).Consistent := ⟨by simp [empty], rfl⟩

@[simp] theorem pair_colOf (m : Matching n) (i j k : Fin n) :
    (m.pair i j).colOf.get k = if k = i then some j else m.colOf.get k := get_set _ _ _ _

@[simp] theorem pair_rowOf (m : Matching n) (i j k : Fin n) :
    (m.pair i j).rowOf.get k = if k = j then some i else m.rowOf.get k := get_set _ _ _ _

theorem pair_consistent {m : Matching n} (h : m.Consistent) {i j : Fin n} (hi : m.colOf.get i = none)
    (hj : m.rowOf.get j = none) : (m.pair i j).Consistent := by
  refine ⟨fun a b => ?_, h.root⟩
  rw [pair_colOf, pair_rowOf]
  by_cases ha : a = i <;> by_cases hb : b = j
  · subst ha hb
    rw [if_pos rfl, if_pos rfl]
    exact ⟨fun _ => rfl, fun _ => rfl⟩
  · subst ha
    rw [if_pos rfl, if_neg hb]
    exact ⟨fun e => absurd (Option.some.inj e).symm hb, fun e => absurd e (h.rowOf_ne hi b)⟩
  · subst hb
    rw [if_neg ha, if_pos rfl]
    refine ⟨fun e => ?_, fun e => absurd (Option.some.inj e).symm ha⟩
    rw [h.agree, hj] at e
    cases e
  · rw [if_neg ha, if_neg hb]
    exact h.agree a b

/-- A consistent matching of positions that `allowed` admits. -/
structure Admitted (allowed : Fin n → Fin n → Bool) (m : Matching n) : Prop where
  consistent : m.Consistent
  allowed : ∀ i j : Fin n, m.rowOf.get j = some i → allowed i j = true

theorem offer_colOf_of_ne (allowed : Fin n → Fin n → Bool) (m : Matching n) {i k : Fin n} (hk : k ≠ i) :
    (offer allowed m i).colOf.get k = m.colOf.get k := by
  unfold offer
  cases m.firstFree? allowed i with
  | none => rfl
  | some j => rw [pair_colOf, if_neg hk]

theorem offer_admitted {allowed : Fin n → Fin n → Bool} {m : Matching n} (h : m.Admitted allowed)
    {i : Fin n} (hi : m.colOf.get i = none) : (offer allowed m i).Admitted allowed := by
  unfold offer
  cases hf : m.firstFree? allowed i with
  | none => exact h
  | some j =>
    have hj := List.find?_some hf
    simp only [Bool.and_eq_true, Option.isNone_iff_eq_none] at hj
    refine ⟨pair_consistent h.consistent hi hj.1, fun a b hab => ?_⟩
    rw [pair_rowOf] at hab
    split at hab
    · next hb => cases hab; exact hb ▸ hj.2
    · exact h.allowed a b hab

/-! ## Offers in turn -/

section
variable {allowed : Fin n → Fin n → Bool} {b b' : Matching n} {i j : Fin n}

/-- The admitted columns of row `i` that no earlier row holds. -/
def openCols (allowed : Fin n → Fin n → Bool) (b : Matching n) (i : Fin n) : Set (Fin n) :=
  {j | allowed i j = true ∧ ∀ k < i, b.colOf.get k ≠ some j}

/-- The rows before row `k` have had their offers, and each holds the lowest of the columns open to it;
the others wait for theirs. -/
structure Offered (allowed : Fin n → Fin n → Bool) (k : Nat) (b : Matching n) : Prop where
  admitted : b.Admitted allowed
  column : ∀ i : Fin n, i < k → ∀ j, b.colOf.get i = some j ↔ IsLeast (b.openCols allowed i) j
  waiting : ∀ i : Fin n, k ≤ i → b.colOf.get i = none

theorem openCols_congr (h : ∀ k < i, b.colOf.get k = b'.colOf.get k) :
    b.openCols allowed i = b'.openCols allowed i := by
  ext j
  refine and_congr_right fun _ => forall₂_congr fun k hk => ?_
  rw [h k hk]

theorem offer_colOf_self (h : b.colOf.get i = none) :
    (offer allowed b i).colOf.get i = b.firstFree? allowed i := by
  unfold offer
  cases b.firstFree? allowed i with
  | none => exact h
  | some j => rw [pair_colOf, if_pos rfl]

/-- While row `i` and the later ones wait, a column is free if no row before `i` holds it. -/
theorem Offered.rowOf_eq_none_iff (h : b.Offered allowed i) (j : Fin n) :
    b.rowOf.get j = none ↔ ∀ k < i, b.colOf.get k ≠ some j := by
  have hagree := h.admitted.consistent.agree
  constructor
  · intro hj k _ hk
    rw [hagree, hj] at hk
    cases hk
  · intro hne
    by_contra hj
    obtain ⟨k, hk⟩ := Option.ne_none_iff_exists'.1 hj
    have hkj := (hagree k j).2 hk
    rcases Nat.lt_or_ge k i with hlt | hge
    · exact hne k hlt hkj
    · rw [h.waiting k hge] at hkj
      cases hkj

theorem Offered.firstFree?_eq_some_iff (h : b.Offered allowed i) (j : Fin n) :
    b.firstFree? allowed i = some j ↔ IsLeast (b.openCols allowed i) j := by
  have hopen : {j | ((b.rowOf.get j).isNone && allowed i j) = true} = b.openCols allowed i := by
    ext j
    show ((b.rowOf.get j).isNone && allowed i j) = true ↔ allowed i j = true ∧ _
    rw [Bool.and_eq_true, Option.isNone_iff_eq_none, h.rowOf_eq_none_iff, and_comm]
  unfold firstFree?
  rw [find?_finRange_eq_some_iff, hopen]

/-- After its offer the next row, too, holds the lowest of the columns open to it. -/
theorem Offered.offer (h : b.Offered allowed i) : (b.offer allowed i).Offered allowed (i + 1) := by
  have hfree := h.waiting i (Nat.le_refl _)
  have hother : ∀ r : Fin n, r.val ≠ i.val → (b.offer allowed i).colOf.get r = b.colOf.get r :=
    fun r hr => offer_colOf_of_ne allowed b (Fin.ne_of_val_ne hr)
  constructor
  · exact offer_admitted h.admitted hfree
  · intro r hr j
    -- the rows before `r` hold what they held
    have hopen : (b.offer allowed i).openCols allowed r = b.openCols allowed r :=
      openCols_congr fun k hk => hother k (by omega)
    rw [hopen]
    rcases Nat.lt_or_eq_of_le (Nat.le_of_lt_succ hr) with hlt | heq
    · rw [hother r (Nat.ne_of_lt hlt)]
      exact h.column r hlt j
    · obtain rfl := Fin.ext heq
      rw [offer_colOf_self hfree]
      exact h.firstFree?_eq_some_iff j
  · intro r hr
    rw [hother r (by omega)]
    exact h.waiting r (by omega)

end

variable (allowed : Fin n → Fin n → Bool)

theorem greedy_offered : (greedy allowed).Offered allowed n := by
  have hempty : (empty : Matching n).Offered allowed 0 :=
    ⟨⟨empty_consistent, by simp [empty]⟩, fun _ hi => absurd hi (Nat.not_lt_zero _), by simp [empty]⟩
  exact foldl_finRange_of_step (motive := Offered allowed) hempty fun i b h => h.offer

theorem greedy_admitted : (greedy allowed).Admitted allowed := (greedy_offered allowed).admitted

/-- Every row holds the lowest column that is open to it. -/
theorem greedy_colOf_eq_some_iff (i j : Fin n) :
    (greedy allowed).colOf.get i = some j ↔ IsLeast ((greedy allowed).openCols allowed i) j :=
  (greedy_offered allowed).column i i.isLt j

/-- A row is left over only if no column is open to it. -/
theorem greedy_colOf_eq_none_iff (i : Fin n) :
    (greedy allowed).colOf.get i = none ↔ (greedy allowed).openCols allowed i = ∅ := by
  constructor
  · intro h
    by_contra hne
    obtain ⟨j, hj⟩ := (Set.toFinite _).exists_minimal (Set.nonempty_iff_ne_empty.2 hne)
    rw [(greedy_colOf_eq_some_iff allowed i j).2 (minimal_iff_isLeast.1 hj)] at h
    cases h
  · intro h
    cases hi : (greedy allowed).colOf.get i with
    | none => rfl
    | some j =>
      have hj := ((greedy_colOf_eq_some_iff allowed i j).1 hi).1
      rw [h] at hj
      cases hj

end Matching

end LinearAssignment
