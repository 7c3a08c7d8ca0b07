/-
The states of the method. The greedy matching of the reduced costs is sound: consistent, over
feasible potentials, with tight positions only. A search from a free row keeps a state sound and
matches exactly that row and one more column, so every state that searches lead to is sound.
-/
import LinearAssignment.Optimum
import LinearAssignment.Proofs.Search

namespace LinearAssignment

variable {n : Nat}

namespace Progress

/-! ## Sound states -/

/-- A consistent matching with potentials that support it. -/
structure Sound (c : Costs n) (s : Progress n) : Prop where
  consistent : s.matching.Consistent
  supports : s.potentials.Supports c s.matching

theorem initial_sound (c : Costs n) : (initial c).Sound c := by
  have h := Matching.greedy_admitted ((Potentials.initial c).isTight c)
  exact ⟨h.consistent, Potentials.initial_feasible c, fun i j hij =>
    Potentials.isTight_iff.1 (h.allowed i j hij)⟩

variable {c : Costs n} {s : Progress n} {root : Fin n}

theorem Sound.exists_found (h : s.Sound c) (hr : root ∉ s.matching.matchedRows) :
    ∃ j found, (Search.start c s.potentials root).grow c (s.matching.seat root) = some (j, found) ∧
      Search.Found c (s.matching.seat root) j found := by
  have hm := Matching.seat_seated h.consistent (Matching.not_mem_matchedRows.1 hr)
  exact Search.grow_found hm _ (Search.start_inv hm ⟨h.supports.feasible, h.supports.tight⟩)

/-- The state after the search `found` from `root` has reached column `j`. -/
def flip (s : Progress n) (root j : Fin n) (found : Search n) : Progress n where
  potentials := found.potentials
  matching := (s.matching.seat root).augment found.tree.via j
  adjustments := s.adjustments + found.adjustments

theorem augment_eq_flip {j : Fin n} {found : Search n}
    (hg : (Search.start c s.potentials root).grow c (s.matching.seat root) = some (j, found)) :
    s.augment c root = s.flip root j found := by
  unfold Progress.augment
  simp only [hg]
  rfl

theorem Sound.flip (h : s.Sound c) (hr : root ∉ s.matching.matchedRows) {j : Fin n} {found : Search n}
    (hf : Search.Found c (s.matching.seat root) j found) :
    (s.flip root j found).Sound c ∧
      (s.flip root j found).matching.matchedRows = insert root s.matching.matchedRows ∧
      (s.flip root j found).matching.matchedCols = insert j s.matching.matchedCols := by
  have hr' := Matching.not_mem_matchedRows.1 hr
  have hj : s.matching.rowOf.get j = none := hf.free
  obtain ⟨l, hw, hl⟩ := hf.exists_way
  have hcols : ∀ k ∈ l, k ≠ j → k ∈ s.matching.matchedCols := fun k hk hne =>
    Matching.mem_matchedCols.2 (hf.inv.matched (some k) (hl k hk hne))
  refine ⟨⟨Matching.augment_consistent h.consistent hr' hj hw, hf.inv.supports.feasible,
      fun i k hik => ?_⟩,
    Matching.matchedRows_augment h.consistent hr' hj hw, Matching.matchedCols_augment hw hcols⟩
  -- a column on the way is tight with its new row, any other has its old row
  have hik' : ((s.matching.seat root).augment found.tree.via j).rowOf.get k = some i := hik
  rw [Matching.augment_rowOf hw] at hik'
  split at hik'
  · next hk =>
    refine hf.tight ?_ hik'
    by_cases e : k = j
    · exact .inl e
    · exact .inr (hl k hk e)
  · exact hf.inv.supports.tight i k hik'

theorem Sound.augment (h : s.Sound c) (hr : root ∉ s.matching.matchedRows) {j : Fin n}
    {found : Search n}
    (hg : (Search.start c s.potentials root).grow c (s.matching.seat root) = some (j, found))
    (hf : Search.Found c (s.matching.seat root) j found) :
    (s.augment c root).Sound c ∧
      (s.augment c root).matching.matchedRows = insert root s.matching.matchedRows ∧
      (s.augment c root).matching.matchedCols = insert j s.matching.matchedCols := by
  rw [augment_eq_flip hg]
  exact h.flip hr hf

/-! ## Reachable states -/

/-- The states that searches lead to: the initial one, and from each of them the one after a search
from any of its free rows. -/
inductive Reachable (c : Costs n) : Progress n → Prop
  | initial : Reachable c (initial c)
  | augment {s : Progress n} {root : Fin n} : Reachable c s → root ∉ s.matching.matchedRows →
      Reachable c (s.augment c root)

theorem Reachable.sound (h : Reachable c s) : s.Sound c := by
  induction h with
  | initial => exact initial_sound c
  | augment _ hr ih =>
    obtain ⟨j, found, hg, hf⟩ := ih.exists_found hr
    exact (ih.augment hr hg hf).1

theorem Reachable.matchedRows_augment (h : Reachable c s) (hr : root ∉ s.matching.matchedRows) :
    (s.augment c root).matching.matchedRows = insert root s.matching.matchedRows := by
  obtain ⟨j, found, hg, hf⟩ := h.sound.exists_found hr
  exact (h.sound.augment hr hg hf).2.1

/-- Searching from free rows one after the other stays among the reachable states and matches these
rows. -/
theorem foldl_augment_reachable :
    ∀ (l : List (Fin n)) {s : Progress n}, Reachable c s → l.Nodup →
      (∀ i ∈ l, i ∉ s.matching.matchedRows) → Reachable c (l.foldl (augment c) s) ∧
        (l.foldl (augment c) s).matching.matchedRows = l.toFinset ∪ s.matching.matchedRows
  | [], s, h, _, _ => ⟨h, by simp⟩
  | i :: l, s, h, hd, hl => by
    obtain ⟨hi, hd⟩ := List.nodup_cons.1 hd
    have hir := hl i List.mem_cons_self
    have hm := h.matchedRows_augment hir
    obtain ⟨h1, h2⟩ := foldl_augment_reachable l (h.augment hir) hd fun k hk => by
      rw [hm, Finset.mem_insert]
      rintro (rfl | hk')
      · exact hi hk
      · exact hl k (List.mem_cons_of_mem _ hk) hk'
    refine ⟨h1, ?_⟩
    rw [List.foldl_cons, h2, hm]
    simp

theorem nodup_freeRows (m : Matching n) : m.freeRows.Nodup := (List.nodup_finRange n).filter _

/-- The states of the method, after its first `k` searches, are reachable. -/
theorem reachable_take (c : Costs n) (k : Nat) :
    Reachable c (((initial c).matching.freeRows.take k).foldl (augment c) (initial c)) :=
  (foldl_augment_reachable _ .initial ((nodup_freeRows _).sublist (List.take_sublist k _))
    fun _ hi => Matching.mem_freeRows.1 (List.mem_of_mem_take hi)).1

/-- The state `t` matches the row `root` and the free column `j` besides what `s` matches, no reduced
cost is negative, matched positions are tight, the two sides of the matching say the same, and the
root is empty. -/
structure Augmented (c : Costs n) (s t : Progress n) (root j : Fin n) : Prop where
  free : j ∉ s.matching.matchedCols
  rows : t.matching.matchedRows = insert root s.matching.matchedRows
  cols : t.matching.matchedCols = insert j s.matching.matchedCols
  nonneg : ∀ i k : Fin n, 0 ≤ t.potentials.reduced c i k
  tight : ∀ i k : Fin n, t.matching.colOf.get i = some k → t.potentials.reduced c i k = 0
  agree : ∀ i k : Fin n, t.matching.colOf.get i = some k ↔ t.matching.rowOf.get k = some i
  root_empty : t.matching.rootRow = none

/-- A search from a free row of a reachable state ends, at an unmatched column, and matches exactly
the row and that column in addition. -/
theorem augment_matches (h : Reachable c s) (hr : root ∉ s.matching.matchedRows) :
    ∃ j found, (Search.start c s.potentials root).grow c (s.matching.seat root) = some (j, found) ∧
      Augmented c s (s.augment c root) root j := by
  obtain ⟨j, found, hg, hf⟩ := h.sound.exists_found hr
  obtain ⟨hs, hrows, hcols⟩ := h.sound.augment hr hg hf
  refine ⟨j, found, hg, Matching.not_mem_matchedCols.2 hf.free, hrows, hcols, hs.supports.feasible,
    fun i k hik => ?_, hs.consistent.agree, hs.consistent.root⟩
  exact hs.supports.tight i k ((hs.consistent.agree i k).1 hik)

/-- The multiplication table, of which the greedy matching gets the first row only. -/
def timesTable : Costs 3 := fun i j => (i.val + 1) * (j.val + 1)

/-- On the multiplication table the second search starts where the first one has ended. -/
theorem augment_matches_timesTable :
    let s := (initial timesTable).augment timesTable 1
    Reachable timesTable s ∧ 2 ∉ s.matching.matchedRows ∧
      ∃ j found, (Search.start timesTable s.potentials 2).grow timesTable (s.matching.seat 2) =
        some (j, found) ∧ Augmented timesTable s (s.augment timesTable 2) 2 j := by
  intro s
  have h1 : 1 ∉ (initial timesTable).matching.matchedRows := by decide
  have hs : Reachable timesTable s := .augment .initial h1
  have h2 : 2 ∉ s.matching.matchedRows := by
    rw [Reachable.initial.matchedRows_augment h1]
    decide
  exact ⟨hs, h2, augment_matches hs h2⟩

end Progress

end LinearAssignment
