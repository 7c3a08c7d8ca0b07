/-
Moving rows along pointers. When the pointers lead from an unmatched column through matched columns
to the root, none of them twice, then moving each row on matches the free row in the root and that
column, keeps every other row and column matched, and leaves the matching consistent.

Every column on the way gets the row of the slot it points to and the others keep theirs, so the new
rows are the old ones and that of the root, each in one column still.
-/
import LinearAssignment.Proofs.Matching
import Mathlib.Data.Finset.Insert
import Mathlib.Data.Fintype.Card

namespace LinearAssignment

variable {n : Nat}

/-! ## Ways to the root -/

/-- The pointers lead from a slot to the root through the given columns, none of them twice. -/
inductive Way (via : Vector (Slot n) n) : Slot n → List (Fin n) → Prop
  | root : Way via none []
  | column {j : Fin n} {l : List (Fin n)} : Way via (via.get j) l → j ∉ l → Way via (some j) (j :: l)

/-- A slot at which a way with the given columns can be: one of them, or the root. -/
def OnWay (l : List (Fin n)) : Slot n → Prop
  | none => True
  | some k => k ∈ l

namespace Way

variable {via : Vector (Slot n) n} {s : Slot n} {l : List (Fin n)}

theorem nodup (h : Way via s l) : l.Nodup := by
  induction h with
  | root => exact List.nodup_nil
  | column _ hj ih => exact List.nodup_cons.2 ⟨hj, ih⟩

theorem length_le (h : Way via s l) : l.length ≤ n := by
  simpa using h.nodup.length_le_card

theorem onWay_self (h : Way via s l) : OnWay l s := by
  cases h with
  | root => trivial
  | column => exact List.mem_cons_self

theorem onWay_cons {j : Fin n} {t : Slot n} (h : OnWay l t) : OnWay (j :: l) t := by
  cases t with
  | none => trivial
  | some k => exact List.mem_cons_of_mem j h

theorem onWay_via (h : Way via s l) {k : Fin n} (hk : k ∈ l) : OnWay l (via.get k) := by
  induction h with
  | root => cases hk
  | column hw _ ih =>
    rcases List.mem_cons.1 hk with rfl | hk
    · exact onWay_cons hw.onWay_self
    · exact onWay_cons (ih hk)

/-- A way does not come back to where it starts. -/
theorem via_ne (h : Way via s l) {k : Fin n} (hk : k ∈ l) : via.get k ≠ s := by
  induction h with
  | root => cases hk
  | @column j l hw hj _ =>
    intro e
    have hon : OnWay l (via.get k) := by
      rcases List.mem_cons.1 hk with rfl | hk
      · exact hw.onWay_self
      · exact hw.onWay_via hk
    rw [e] at hon
    exact hj hon

theorem via_inj (h : Way via s l) {a b : Fin n} (ha : a ∈ l) (hb : b ∈ l) (e : via.get a = via.get b) :
    a = b := by
  induction h with
  | root => cases ha
  | column hw _ ih =>
    rcases List.mem_cons.1 ha with rfl | ha' <;> rcases List.mem_cons.1 hb with rfl | hb'
    · rfl
    · exact absurd e.symm (hw.via_ne hb')
    · exact absurd e (hw.via_ne ha')
    · exact ih ha' hb'

/-- A way reaches each of its slots but the first from one of its columns. -/
theorem exists_via (h : Way via s l) {t : Slot n} (ht : OnWay l t) (hs : t ≠ s) :
    ∃ a ∈ l, via.get a = t := by
  induction h with
  | root =>
    cases t with
    | none => exact absurd rfl hs
    | some k => cases ht
  | @column j l hw _ ih =>
    have htl : OnWay l t := by
      cases t with
      | none => trivial
      | some k =>
        rcases List.mem_cons.1 ht with rfl | ht
        · exact absurd rfl hs
        · exact ht
    by_cases e : via.get j = t
    · exact ⟨j, List.mem_cons_self, e⟩
    · obtain ⟨a, ha, hat⟩ := ih htl (Ne.symm e)
      exact ⟨a, List.mem_cons_of_mem _ ha, hat⟩

end Way

namespace Matching

/-! ## Moving the rows -/

@[simp] theorem shift_colOf (via : Vector (Slot n) n) :
    ∀ (steps : Nat) (s : Slot n) (m : Matching n), (shift via steps s m).colOf = m.colOf
  | 0, none, _ => rfl
  | 0, some _, _ => rfl
  | _ + 1, none, _ => rfl
  | steps + 1, some j, m => by rw [shift, shift_colOf via steps]

/-- After the walk, each column of the way has the row of the slot it points to. -/
theorem shift_rowOf {via : Vector (Slot n) n} {s : Slot n} {l : List (Fin n)} (h : Way via s l) :
    ∀ {steps : Nat}, l.length ≤ steps → ∀ (m : Matching n) (k : Fin n),
      (shift via steps s m).rowOf.get k = if k ∈ l then m.rowAt (via.get k) else m.rowOf.get k := by
  induction h with
  | root =>
    intro steps _ m k
    cases steps <;> simp [shift]
  | @column j l hw hj ih =>
    intro steps hl m k
    obtain ⟨steps, rfl⟩ : ∃ t, steps = t + 1 := ⟨steps - 1, by simp only [List.length_cons] at hl; omega⟩
    have hl' : l.length ≤ steps := by simp only [List.length_cons] at hl; omega
    rw [shift, ih hl']
    by_cases hk : k ∈ l
    · -- the slot that `k` points to is further on, so its row is still the old one
      rw [if_pos hk, if_pos (List.mem_cons_of_mem _ hk)]
      have hon := hw.onWay_via hk
      cases hv : via.get k with
      | none => rfl
      | some b =>
        rw [hv] at hon
        have hb : b ≠ j := fun e => hj (e ▸ hon)
        show (m.rowOf.set j (m.rowAt (via.get j)) j.isLt).get b = m.rowOf.get b
        rw [get_set, if_neg hb]
    · -- the first column takes its row now, and the walk does not come back to it
      rw [if_neg hk, get_set]
      by_cases e : k = j
      · subst e; simp
      · rw [if_neg e, if_neg]
        rintro hm
        rcases List.mem_cons.1 hm with rfl | hm
        · exact e rfl
        · exact hk hm

/-! ## Entering the rows -/

theorem foldl_enter_of_some {m : Matching n} {i k : Fin n} (hk : m.rowOf.get k = some i)
    (hu : ∀ a : Fin n, m.rowOf.get a = some i → a = k) :
    ∀ (l : List (Fin n)) (t : Vector (Option (Fin n)) n), k ∈ l ∨ t.get i = some k →
      (l.foldl m.enter t).get i = some k
  | [], t, h => h.resolve_left List.not_mem_nil
  | a :: l, t, h => by
    refine foldl_enter_of_some hk hu l _ ?_
    unfold enter
    cases ha : m.rowOf.get a with
    | none =>
      refine h.imp_left fun hm => (List.mem_cons.1 hm).resolve_left ?_
      rintro rfl
      rw [hk] at ha
      cases ha
    | some b =>
      simp only [get_set]
      by_cases e : i = b
      · exact .inr (by rw [if_pos e, hu a (e ▸ ha)])
      · rw [if_neg e]
        refine h.imp_left fun hm => (List.mem_cons.1 hm).resolve_left ?_
        rintro rfl
        rw [hk] at ha
        exact e (Option.some.inj ha)

theorem foldl_enter_of_none {m : Matching n} {i : Fin n} (hi : ∀ k : Fin n, m.rowOf.get k ≠ some i) :
    ∀ (l : List (Fin n)) (t : Vector (Option (Fin n)) n), (l.foldl m.enter t).get i = t.get i
  | [], _ => rfl
  | a :: l, t => by
    rw [List.foldl_cons, foldl_enter_of_none hi l]
    unfold enter
    cases ha : m.rowOf.get a with
    | none => rfl
    | some b =>
      have e : i ≠ b := by
        rintro rfl
        exact hi a ha
      simp only [get_set]
      exact if_neg e

/-- Once no row is in two columns and no row has lost its column, entering the rows makes the two
sides agree. -/
theorem refresh_agree {m : Matching n}
    (hu : ∀ i a b : Fin n, m.rowOf.get a = some i → m.rowOf.get b = some i → a = b)
    (hc : ∀ i j : Fin n, m.colOf.get i = some j → ∃ k : Fin n, m.rowOf.get k = some i) (i j : Fin n) :
    m.refresh.colOf.get i = some j ↔ m.rowOf.get j = some i := by
  have hsome : ∀ k : Fin n, m.rowOf.get k = some i → m.refresh.colOf.get i = some k := fun k hk =>
    foldl_enter_of_some hk (fun a ha => hu i a k ha hk) _ _ (.inl (List.mem_finRange k))
  refine ⟨fun h => ?_, hsome j⟩
  by_cases hex : ∃ k : Fin n, m.rowOf.get k = some i
  · obtain ⟨k, hk⟩ := hex
    rw [hsome k hk] at h
    exact Option.some.inj h ▸ hk
  · have hi : ∀ k : Fin n, m.rowOf.get k ≠ some i := fun k hk => hex ⟨k, hk⟩
    have hr : m.refresh.colOf.get i = m.colOf.get i := foldl_enter_of_none hi _ _
    exact absurd (hc i j (hr ▸ h)) hex

/-! ## Augmentation -/

theorem augment_rowOf {m : Matching n} {via : Vector (Slot n) n} {j : Fin n} {l : List (Fin n)}
    (hw : Way via (some j) l) (k : Fin n) :
    (m.augment via j).rowOf.get k = if k ∈ l then m.rowAt (via.get k) else m.rowOf.get k :=
  shift_rowOf hw hw.length_le m k

section Seated

variable {m : Matching n} {root j : Fin n} {via : Vector (Slot n) n} {l : List (Fin n)}

/-- With a free row in the root, a row is in one slot at most. -/
theorem rowAt_seat_unique (h : m.Consistent) (hr : m.colOf.get root = none) {s t : Slot n} {i : Fin n}
    (hs : (m.seat root).rowAt s = some i) (ht : (m.seat root).rowAt t = some i) : s = t := by
  cases s with
  | none =>
    cases Option.some.inj hs
    cases t with
    | none => rfl
    | some b => exact absurd ht (h.rowOf_ne hr b)
  | some a =>
    cases t with
    | none =>
      cases Option.some.inj ht
      exact absurd hs (h.rowOf_ne hr a)
    | some b => rw [h.col_unique hs ht]

/-- The slots with the free row in the root hold the matched rows and that one. -/
theorem exists_rowAt_seat_iff (h : m.Consistent) {i : Fin n} :
    (∃ s, (m.seat root).rowAt s = some i) ↔ i = root ∨ i ∈ m.matchedRows := by
  constructor
  · rintro ⟨s, hs⟩
    cases s with
    | none => exact .inl (Option.some.inj hs).symm
    | some k => exact .inr (mem_matchedRows.2 ⟨k, (h.agree i k).2 hs⟩)
  · rintro (rfl | hi)
    · exact ⟨none, rfl⟩
    · obtain ⟨k, hk⟩ := mem_matchedRows.1 hi
      exact ⟨some k, (h.agree i k).1 hk⟩

/-- Each slot but the unmatched column hands its row to a column. -/
theorem exists_augment_rowOf_iff (hj : m.rowOf.get j = none) (hw : Way via (some j) l) {i : Fin n} :
    (∃ k : Fin n, ((m.seat root).augment via j).rowOf.get k = some i) ↔
      ∃ s, (m.seat root).rowAt s = some i := by
  constructor
  · rintro ⟨k, hk⟩
    rw [augment_rowOf hw] at hk
    split at hk
    · exact ⟨via.get k, hk⟩
    · exact ⟨some k, hk⟩
  · rintro ⟨s, hs⟩
    by_cases hon : OnWay l s
    · have hne : s ≠ some j := by
        rintro rfl
        have hs' : m.rowOf.get j = some i := hs
        rw [hj] at hs'
        cases hs'
      obtain ⟨k, hk, rfl⟩ := hw.exists_via hon hne
      exact ⟨k, by rw [augment_rowOf hw, if_pos hk]; exact hs⟩
    · cases s with
      | none => exact absurd trivial hon
      | some k =>
        have hk : k ∉ l := hon
        exact ⟨k, by rw [augment_rowOf hw, if_neg hk]; exact hs⟩

theorem augment_col_unique (h : m.Consistent) (hr : m.colOf.get root = none)
    (hw : Way via (some j) l) (i a b : Fin n)
    (ha : ((m.seat root).augment via j).rowOf.get a = some i)
    (hb : ((m.seat root).augment via j).rowOf.get b = some i) : a = b := by
  rw [augment_rowOf hw] at ha hb
  by_cases hal : a ∈ l <;> by_cases hbl : b ∈ l
  · rw [if_pos hal] at ha
    rw [if_pos hbl] at hb
    exact hw.via_inj hal hbl (rowAt_seat_unique h hr ha hb)
  · rw [if_pos hal] at ha
    rw [if_neg hbl] at hb
    have hv : via.get a = some b := rowAt_seat_unique h hr ha hb
    exact absurd (hv ▸ hw.onWay_via hal : OnWay l (some b)) hbl
  · rw [if_neg hal] at ha
    rw [if_pos hbl] at hb
    have hv : via.get b = some a := rowAt_seat_unique h hr hb ha
    exact absurd (hv ▸ hw.onWay_via hbl : OnWay l (some a)) hal
  · rw [if_neg hal] at ha
    rw [if_neg hbl] at hb
    exact h.col_unique ha hb

theorem augment_consistent (h : m.Consistent) (hr : m.colOf.get root = none) (hj : m.rowOf.get j = none)
    (hw : Way via (some j) l) : ((m.seat root).augment via j).Consistent := by
  refine ⟨refresh_agree (augment_col_unique h hr hw) fun i k hk => ?_, rfl⟩
  -- the walk has not touched the columns of the rows, and every old row is in a slot
  have hk' : m.colOf.get i = some k := by
    have e : (shift via n (some j) (m.seat root)).colOf = m.colOf := shift_colOf via n _ _
    rw [← e]
    exact hk
  exact (exists_augment_rowOf_iff hj hw).2 ⟨some k, (h.agree i k).1 hk'⟩

theorem matchedRows_augment (h : m.Consistent) (hr : m.colOf.get root = none) (hj : m.rowOf.get j = none)
    (hw : Way via (some j) l) :
    ((m.seat root).augment via j).matchedRows = insert root m.matchedRows := by
  ext i
  have hc := augment_consistent h hr hj hw
  rw [Finset.mem_insert, mem_matchedRows, ← exists_rowAt_seat_iff h, ← exists_augment_rowOf_iff hj hw]
  simp only [hc.agree]

theorem matchedCols_augment (hw : Way via (some j) l)
    (hl : ∀ k ∈ l, k ≠ j → k ∈ m.matchedCols) :
    ((m.seat root).augment via j).matchedCols = insert j m.matchedCols := by
  ext k
  rw [Finset.mem_insert, mem_matchedCols, augment_rowOf hw]
  by_cases hk : k ∈ l
  · rw [if_pos hk]
    have hrow : ∃ i, (m.seat root).rowAt (via.get k) = some i := by
      have hon := hw.onWay_via hk
      have hne := hw.via_ne hk
      cases hv : via.get k with
      | none => exact ⟨root, rfl⟩
      | some b =>
        rw [hv] at hon hne
        exact mem_matchedCols.1 (hl b hon fun e => hne (congrArg some e))
    have hmem : k = j ∨ k ∈ m.matchedCols := by
      by_cases e : k = j
      · exact .inl e
      · exact .inr (hl k hk e)
    exact ⟨fun _ => hmem, fun _ => hrow⟩
  · have e : k ≠ j := by
      rintro rfl
      exact hk hw.onWay_self
    rw [if_neg hk, or_iff_right e, mem_matchedCols]
    rfl

end Seated

end Matching

end LinearAssignment
