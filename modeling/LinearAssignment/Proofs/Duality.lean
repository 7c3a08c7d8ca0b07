/-
Potentials as lower bounds. Along any permutation the reduced costs add up to its total cost less
the value of the potentials; so when no reduced cost is negative, a permutation of tight positions
has least total cost, and any other permutation costs more by exactly its reduced costs.
-/
import LinearAssignment.Potentials
import Mathlib.Algebra.BigOperators.Group.Finset.Basic
import Mathlib.Algebra.BigOperators.Ring.Finset
import Mathlib.Algebra.Order.BigOperators.Group.Finset
import Mathlib.Data.Fintype.BigOperators
import Mathlib.Tactic.Linarith

namespace LinearAssignment

variable {n : Nat}

/-! ## Least values -/

theorem least_le (f : Fin n → Int) (i : Fin n) : least f ≤ f i := by
  have hi : f i ∈ (List.finRange n).map f := List.mem_map_of_mem (List.mem_finRange i)
  unfold least
  cases hm : ((List.finRange n).map f).min? with
  | none => rw [List.min?_eq_none_iff.1 hm] at hi; cases hi
  | some a => exact (List.min?_eq_some_iff.1 hm).2 _ hi

theorem exists_eq_least (f : Fin n → Int) (i : Fin n) : ∃ k, f k = least f := by
  have hi : f i ∈ (List.finRange n).map f := List.mem_map_of_mem (List.mem_finRange i)
  unfold least
  cases hm : ((List.finRange n).map f).min? with
  | none => rw [List.min?_eq_none_iff.1 hm] at hi; cases hi
  | some a =>
    obtain ⟨k, -, hk⟩ := List.mem_map.1 (List.min?_eq_some_iff.1 hm).1
    exact ⟨k, hk⟩

namespace Potentials

@[simp] theorem initial_row (c : Costs n) (i : Fin n) : (initial c).row.get i = least (c i) :=
  get_ofFn _ i

@[simp] theorem initial_col (c : Costs n) (j : Fin n) :
    (initial c).col.get j = least fun i => c i j - least (c i) := by
  simp [initial]

/-! ## Feasible potentials -/

/-- No reduced cost is negative. -/
def Feasible (p : Potentials n) (c : Costs n) : Prop := ∀ i j, 0 ≤ p.reduced c i j

theorem isTight_iff {p : Potentials n} {c : Costs n} {i j : Fin n} :
    p.isTight c i j = true ↔ p.reduced c i j = 0 := by
  unfold isTight; exact beq_iff_eq

theorem reduced_initial (c : Costs n) (i j : Fin n) :
    (initial c).reduced c i j = c i j - least (c i) - least fun k => c k j - least (c k) := by
  rw [reduced, initial_row, initial_col]

theorem initial_feasible (c : Costs n) : (initial c).Feasible c := by
  intro i j
  rw [reduced_initial]
  have := least_le (fun k => c k j - least (c k)) i
  omega

/-! ## Weak duality -/

/-- The value of potentials as a bound: the sum of those of the rows and of the columns. -/
def value (p : Potentials n) : Int := ∑ i : Fin n, p.row.get i + ∑ j : Fin n, p.col.get j

theorem sum_reduced (p : Potentials n) (c : Costs n) (σ : Equiv.Perm (Fin n)) :
    ∑ i, p.reduced c i (σ i) = ∑ i, c i (σ i) - p.value := by
  -- a permutation passes every column once, so the potentials of the columns all count
  have hcol : ∑ i : Fin n, p.col.get (σ i) = ∑ j : Fin n, p.col.get j := Equiv.sum_comp σ fun j => p.col.get j
  unfold reduced value
  rw [Finset.sum_sub_distrib, Finset.sum_sub_distrib, hcol]
  omega

/-- The value of feasible potentials is a lower bound for every permutation. -/
theorem Feasible.value_le {p : Potentials n} {c : Costs n} (hp : p.Feasible c)
    (σ : Equiv.Perm (Fin n)) : p.value ≤ ∑ i, c i (σ i) := by
  have hn : 0 ≤ ∑ i, p.reduced c i (σ i) := Finset.sum_nonneg fun i _ => hp i (σ i)
  rw [p.sum_reduced c σ] at hn
  omega

theorem sum_eq_value {p : Potentials n} {c : Costs n} {σ : Equiv.Perm (Fin n)}
    (h : ∀ i, p.reduced c i (σ i) = 0) : ∑ i, c i (σ i) = p.value := by
  have hs := p.sum_reduced c σ
  rw [Finset.sum_eq_zero fun i _ => h i] at hs
  omega

/-- What a permutation costs more than one of tight positions is the sum of its reduced costs. -/
theorem excess_eq {p : Potentials n} {c : Costs n} {σ : Equiv.Perm (Fin n)}
    (h : ∀ i, p.reduced c i (σ i) = 0) (τ : Equiv.Perm (Fin n)) :
    ∑ i, c i (τ i) - ∑ i, c i (σ i) = ∑ i, p.reduced c i (τ i) := by
  rw [sum_eq_value h, p.sum_reduced c τ]

/-- With feasible potentials a permutation of tight positions has least cost. -/
theorem sum_le_of_tight {p : Potentials n} {c : Costs n} (hp : p.Feasible c)
    {σ : Equiv.Perm (Fin n)} (h : ∀ i, p.reduced c i (σ i) = 0) (τ : Equiv.Perm (Fin n)) :
    ∑ i, c i (σ i) ≤ ∑ i, c i (τ i) := by
  rw [sum_eq_value h]
  exact hp.value_le τ

end Potentials

end LinearAssignment
