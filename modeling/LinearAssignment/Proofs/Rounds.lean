/-
How long a search lasts. Each round takes a column from outside the tree, and every round but the last
one a column that has a row; such a column joins the tree, so no round takes it again. A search over a
matching of `k` columns has at most `k + 1` rounds, and as many columns at most are on the way from the
column it ends at to the root.
-/
import LinearAssignment.Proofs.Bounds

namespace LinearAssignment

variable {n : Nat}

namespace Search

/-- The search goes from `t` to `found` in rounds that take the columns of a list, the last of which has
no row. -/
inductive Rounds (c : Costs n) (m : Matching n) : Search n → List (Fin n) → Search n → Prop
  | last {t : Search n} {j : Fin n} (hj : t.tree.nearest? = some j) (hfree : m.rowOf.get j = none) :
      Rounds c m t [j] (t.raise (t.tree.slack.get j))
  | more {t found : Search n} {j r : Fin n} {l : List (Fin n)} (hj : t.tree.nearest? = some j)
      (hr : m.rowOf.get j = some r)
      (h : Rounds c m ((t.raise (t.tree.slack.get j)).absorb c j r) l found) :
      Rounds c m t (j :: l) found

variable {c : Costs n} {m : Matching n} {t found : Search n} {root : Fin n} {l : List (Fin n)}

theorem grow_eq_of_nearest {j : Fin n} (hj : t.tree.nearest? = some j) : t.grow c m =
    match m.rowOf.get j with
    | none => some (j, t.raise (t.tree.slack.get j))
    | some r => ((t.raise (t.tree.slack.get j)).absorb c j r).grow c m := by
  rw [grow]
  split
  · next h => rw [hj] at h; cases h
  · next k h => cases Option.some.inj (hj.symm.trans h); rfl

theorem grow_eq_none (hj : t.tree.nearest? = none) : t.grow c m = none := by
  rw [grow]
  split
  · rfl
  · next k h => rw [hj] at h; cases h

theorem Rounds.grow (h : Rounds c m t l found) :
    ∃ j, l.getLast? = some j ∧ t.grow c m = some (j, found) := by
  induction h with
  | @last t j hj hfree =>
    refine ⟨j, rfl, ?_⟩
    rw [grow_eq_of_nearest hj, hfree]
  | @more t found j r l hj hr h ih =>
    obtain ⟨k, hk, hg⟩ := ih
    refine ⟨k, ?_, ?_⟩
    · rw [List.getLast?_cons, hk, Option.getD_some]
    · rw [grow_eq_of_nearest hj, hr]
      exact hg

/-- The rounds take columns from outside the tree, none twice. -/
theorem Rounds.outside (h : Rounds c m t l found) :
    l.Nodup ∧ ∀ k ∈ l, t.tree.cols.get k = false := by
  induction h with
  | @last t j hj _ =>
    refine ⟨List.nodup_singleton j, fun k hk => ?_⟩
    rw [List.mem_singleton.1 hk]
    exact (SearchTree.nearest?_some hj).1
  | @more t found j r l hj _ _ ih =>
    obtain ⟨hnodup, hl⟩ := ih
    have hold : ∀ k ∈ l, k ≠ j ∧ t.tree.cols.get k = false := by
      intro k hk
      have hnew : (t.tree.lower (t.tree.slack.get j) |>.absorb j r _).cols.get k = false := hl k hk
      rw [SearchTree.absorb_cols] at hnew
      by_cases e : k = j
      · rw [if_pos e] at hnew
        cases hnew
      · rw [if_neg e] at hnew
        exact ⟨e, hnew⟩
    refine ⟨List.nodup_cons.2 ⟨fun hj' => (hold j hj').1 rfl, hnodup⟩, fun k hk => ?_⟩
    rcases List.mem_cons.1 hk with rfl | hk
    · exact (SearchTree.nearest?_some hj).1
    · exact (hold k hk).2

/-- Every round but the last takes a matched column. -/
theorem Rounds.matched (h : Rounds c m t l found) :
    ∀ k ∈ l.dropLast, k ∈ m.matchedCols := by
  induction h with
  | last => simp
  | @more t found j r l _ hr h ih =>
    obtain ⟨k, hk, -⟩ := h.grow
    have hne : l ≠ [] := by
      rintro rfl
      cases hk
    rw [List.dropLast_cons_of_ne_nil hne]
    intro k hk
    rcases List.mem_cons.1 hk with rfl | hk
    · exact Matching.mem_matchedCols.2 ⟨r, hr⟩
    · exact ih k hk

theorem Rounds.length_le (h : Rounds c m t l found) : l.length ≤ m.matchedCols.card + 1 := by
  have hsub : l.dropLast.toFinset ⊆ m.matchedCols := fun k hk => h.matched k (List.mem_toFinset.1 hk)
  have hcard := Finset.card_le_card hsub
  rw [List.toFinset_card_of_nodup (h.outside.1.sublist (List.dropLast_sublist l)),
    List.length_dropLast] at hcard
  omega

/-- A search that keeps its invariant goes on in rounds to the end. -/
theorem Inv.exists_rounds (hm : m.Seated root) (t : Search n) (h : t.Inv c m) :
    ∃ l found, Rounds c m t l found := by
  fun_induction grow c m t with
  | case1 t hnone =>
    obtain ⟨j, hj⟩ := h.exists_outside hm
    rw [SearchTree.nearest?_none hnone j] at hj
    cases hj
  | case2 t j hj raised hfree => exact ⟨_, _, .last hj hfree⟩
  | case3 t j hj raised r hr ih =>
    obtain ⟨hinv, hout, h0⟩ := h.raise_nearest hm hj
    obtain ⟨l, found, hl⟩ := ih (hinv.absorb hout hr h0)
    exact ⟨j :: l, found, .more hj hr hl⟩

/-- On the way from the column that a search has found to the root every other column is matched. -/
theorem Found.exists_short_way {j : Fin n} (h : Found c m j found) :
    ∃ l, Way found.tree.via (some j) l ∧ l.length ≤ m.matchedCols.card + 1 := by
  obtain ⟨l, hw, hl⟩ := h.exists_way
  refine ⟨l, hw, ?_⟩
  have hsub : l.toFinset ⊆ insert j m.matchedCols := by
    intro k hk
    rw [Finset.mem_insert]
    by_cases e : k = j
    · exact .inl e
    · exact .inr (Matching.mem_matchedCols.2 (h.inv.matched (some k) (hl k (List.mem_toFinset.1 hk) e)))
  have hcard := Finset.card_le_card hsub
  rw [List.toFinset_card_of_nodup hw.nodup] at hcard
  exact hcard.trans (Finset.card_insert_le j _)

end Search

end LinearAssignment
