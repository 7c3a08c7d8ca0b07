/-
The end of the method: every row is matched, so the matching is a permutation of tight positions
under feasible potentials, and no permutation costs less.
-/
import LinearAssignment.Proofs.Progress

namespace LinearAssignment

variable {n : Nat}

theorem optimum_sound (c : Costs n) :
    (optimum c).matching.Consistent ∧ (optimum c).potentials.Supports c (optimum c).matching ∧
      ∀ i, i ∈ (optimum c).matching.matchedRows := by
  obtain ⟨hr, hm⟩ := Progress.foldl_augment_reachable (Progress.initial c).matching.freeRows
    (.initial (c := c)) (Progress.nodup_freeRows _) fun _ hi => Matching.mem_freeRows.1 hi
  refine ⟨hr.sound.consistent, hr.sound.supports, fun i => ?_⟩
  have hi : i ∈ (Progress.initial c).matching.freeRows.toFinset ∪
      (Progress.initial c).matching.matchedRows := by
    rw [Finset.mem_union, List.mem_toFinset, Matching.mem_freeRows]
    exact (Classical.em _).symm
  exact hm ▸ hi

/-- The matching found is a permutation of tight positions. -/
theorem exists_perm_optimum (c : Costs n) : ∃ σ : Equiv.Perm (Fin n),
    (∀ i, (optimum c).matching.colOf.get i = some (σ i)) ∧
      ∀ i, (optimum c).potentials.reduced c i (σ i) = 0 := by
  obtain ⟨hc, hs, hall⟩ := optimum_sound c
  obtain ⟨σ, hσ⟩ := hc.exists_perm hall
  exact ⟨σ, hσ, fun i => hs.tight i (σ i) ((hc.agree i (σ i)).1 (hσ i))⟩

theorem optimum_feasible (c : Costs n) : (optimum c).potentials.Feasible c :=
  (optimum_sound c).2.1.feasible

end LinearAssignment
