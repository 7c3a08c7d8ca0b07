/-
Pairings of rows and columns: as many positions as the shape allows, no two in one row or column.
In the square on the longer side, the positions of a permutation that lie inside the shape are a
pairing, and every pairing arises so. Sums over pairings are therefore sums over permutations that
count nothing outside the shape.
-/
import LinearAssignment.Matrix.Basic
import Mathlib.Algebra.BigOperators.Fin
import Mathlib.Data.Fintype.Fin
import Mathlib.Logic.Equiv.Fintype

namespace LinearAssignment

/-- As many positions as a shape allows, all inside it, with distinct rows and distinct columns. -/
structure IsPairing (rows cols : Nat) (l : List (Nat × Nat)) : Prop where
  inside : ∀ p ∈ l, p.1 < rows ∧ p.2 < cols
  rows_nodup : (l.map Prod.fst).Nodup
  cols_nodup : (l.map Prod.snd).Nodup
  length_eq : l.length = min rows cols

/-- The sum of the entries at the given positions. -/
def Matrix.pairSum (m : Matrix) (l : List (Nat × Nat)) : Int := (l.map fun q => m.entry q.1 q.2).sum

variable {n rows cols : Nat}

/-! ## The part of a permutation inside a shape -/

/-- The positions of a permutation that lie inside the shape, row by row. -/
def insidePairs (rows cols : Nat) (σ : Equiv.Perm (Fin n)) : List (Nat × Nat) :=
  ((List.finRange n).filter fun i => i.val < rows ∧ (σ i).val < cols).map fun i => (i.val, (σ i).val)

theorem mem_insidePairs {σ : Equiv.Perm (Fin n)} {p : Nat × Nat} :
    p ∈ insidePairs rows cols σ ↔
      ∃ i : Fin n, (i.val < rows ∧ (σ i).val < cols) ∧ (i.val, (σ i).val) = p := by
  simp [insidePairs]

theorem sum_insidePairs (σ : Equiv.Perm (Fin n)) (g : Nat → Nat → Int) :
    ((insidePairs rows cols σ).map fun p => g p.1 p.2).sum =
      ∑ i : Fin n, if i.val < rows ∧ (σ i).val < cols then g i (σ i) else 0 := by
  unfold insidePairs
  rw [Fin.sum_univ_def, List.sum_map_ite, List.map_map]
  simp [Function.comp_def]

/-- A permutation of the square has as many positions inside the shape as the shorter side is long. -/
theorem card_inside (hn : n = max rows cols) (σ : Equiv.Perm (Fin n)) :
    (Finset.univ.filter fun i : Fin n => i.val < rows ∧ (σ i).val < cols).card = min rows cols := by
  -- on the longer side nothing is left out, so only the shorter side counts
  rcases Nat.le_total rows cols with h | h
  · have hall : ∀ i : Fin n, (σ i).val < cols := fun i => by have := (σ i).isLt; omega
    simp only [hall, and_true, Fin.card_filter_val_lt]
    omega
  · have hall : ∀ i : Fin n, i.val < rows := fun i => by have := i.isLt; omega
    have hmap : (Finset.univ.filter fun i : Fin n => (σ i).val < cols).card =
        (Finset.univ.filter fun j : Fin n => j.val < cols).card :=
      Finset.card_equiv σ fun i => by simp
    simp only [hall, true_and, hmap, Fin.card_filter_val_lt]
    omega

theorem length_insidePairs (hn : n = max rows cols) (σ : Equiv.Perm (Fin n)) :
    (insidePairs rows cols σ).length = min rows cols := by
  have hcard : (insidePairs rows cols σ).length =
      (Finset.univ.filter fun i : Fin n => i.val < rows ∧ (σ i).val < cols).card := by
    unfold insidePairs
    rw [List.length_map, ← List.toFinset_card_of_nodup ((List.nodup_finRange n).filter _)]
    congr 1
    ext i
    simp
  rw [hcard, card_inside hn]

theorem insidePairs_isPairing (hn : n = max rows cols) (σ : Equiv.Perm (Fin n)) :
    IsPairing rows cols (insidePairs rows cols σ) := by
  refine ⟨fun p hp => ?_, ?_, ?_, length_insidePairs hn σ⟩
  · obtain ⟨i, hi, rfl⟩ := mem_insidePairs.1 hp
    exact hi
  · unfold insidePairs
    rw [List.map_map]
    exact ((List.nodup_finRange n).filter _).map Fin.val_injective
  · unfold insidePairs
    rw [List.map_map]
    exact ((List.nodup_finRange n).filter _).map (Fin.val_injective.comp σ.injective)

theorem pairwise_insidePairs (rows cols : Nat) (σ : Equiv.Perm (Fin n)) :
    (insidePairs rows cols σ).Pairwise fun a b => a.1 < b.1 := by
  unfold insidePairs
  rw [List.pairwise_map]
  exact (List.pairwise_lt_finRange n).filter _

/-! ## Every pairing is part of a permutation -/

theorem exists_perm_extending {k : Nat} {x y : Fin k → Fin n} (hx : Function.Injective x)
    (hy : Function.Injective y) : ∃ σ : Equiv.Perm (Fin n), ∀ a, σ (x a) = y a := by
  classical
  let e := (Equiv.ofInjective x hx).symm.trans (Equiv.ofInjective y hy)
  refine ⟨e.extendSubtype, fun a => ?_⟩
  have hxa : (Equiv.ofInjective x hx).symm ⟨x a, a, rfl⟩ = a := Equiv.ofInjective_symm_apply hx a
  rw [e.extendSubtype_apply_of_mem (x a) ⟨a, rfl⟩]
  show (Equiv.ofInjective y hy ((Equiv.ofInjective x hx).symm ⟨x a, a, rfl⟩)).val = y a
  rw [hxa]
  rfl

theorem injective_of_nodup_map {α β : Type} {f : α → β} {l : List α} (h : (l.map f).Nodup) :
    Function.Injective fun a : Fin l.length => f l[a] := by
  intro a b hab
  have ha : a.val < (l.map f).length := by simp
  have hb : b.val < (l.map f).length := by simp
  have hget : (l.map f)[a.val] = (l.map f)[b.val] := by simpa using hab
  exact Fin.ext (h.getElem_inj_iff.1 hget)

theorem IsPairing.perm_insidePairs {l : List (Nat × Nat)} (h : IsPairing rows cols l)
    (hn : n = max rows cols) : ∃ σ : Equiv.Perm (Fin n), l.Perm (insidePairs rows cols σ) := by
  have hin : ∀ a : Fin l.length, l[a].1 < rows ∧ l[a].2 < cols := fun a => h.inside _ (List.getElem_mem _)
  let x : Fin l.length → Fin n := fun a => ⟨l[a].1, by have := (hin a).1; omega⟩
  let y : Fin l.length → Fin n := fun a => ⟨l[a].2, by have := (hin a).2; omega⟩
  have hx : Function.Injective x := fun a b hab =>
    injective_of_nodup_map h.rows_nodup (congrArg Fin.val hab)
  have hy : Function.Injective y := fun a b hab =>
    injective_of_nodup_map h.cols_nodup (congrArg Fin.val hab)
  obtain ⟨σ, hσ⟩ := exists_perm_extending hx hy
  have hsub : l ⊆ insidePairs rows cols σ := by
    intro p hp
    obtain ⟨a, ha, rfl⟩ := List.getElem_of_mem hp
    have hval : (σ (x ⟨a, ha⟩)).val = l[a].2 := congrArg Fin.val (hσ ⟨a, ha⟩)
    refine mem_insidePairs.2 ⟨x ⟨a, ha⟩, ?_, ?_⟩
    · rw [hval]
      exact hin ⟨a, ha⟩
    · exact Prod.ext rfl hval
  -- a part of the list of the same length is all of it
  have hnodup : l.Nodup := h.rows_nodup.of_map _
  refine ⟨σ, (List.subperm_of_subset hnodup hsub).perm_of_length_le ?_⟩
  rw [length_insidePairs hn, h.length_eq]

end LinearAssignment
