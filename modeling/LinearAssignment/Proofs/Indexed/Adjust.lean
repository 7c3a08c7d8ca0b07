/-
Adjusting numbered vectors by the least slack. The slots are shifted one after the other: a slot in the
tree with its row, any other in its slack. Since no row is in two slots, no row is shifted twice, and
what comes out is the vectors of the raised potentials and the lowered tree.
-/
import LinearAssignment.Proofs.Indexed.Scan

namespace LinearAssignment.Indexed

variable {n : Nat}

section
variable (p : Potentials n) (b : Matching n) (t : SearchTree n) (d : Int) (l : List (Slot n))

/-! ## After some slots -/

/-- The potentials of the rows once the slots of a list are shifted. -/
def rowAfter (i : Fin n) : Int :=
  if ∃ u ∈ l, t.hasSlot u = true ∧ b.rowAt u = some i then p.row.get i + d else p.row.get i

/-- The potentials of the columns and the root once the slots of a list are shifted. -/
def slotAfter (u : Slot n) : Int := if u ∈ l ∧ t.hasSlot u = true then p.slot u - d else p.slot u

/-- The slacks once the slots of a list are shifted. -/
def slackAfter (j : Fin n) : Int :=
  if some j ∈ l ∧ t.hasSlot (some j) = false then t.slack.get j - d else t.slack.get j

/-- The vectors once the slots of a list are shifted. -/
def shifted : State × Tree :=
  ({ State.of p b with row := cells (rowAfter p b t d l), col := slots (slotAfter p t d l) },
    { Tree.of t with slack := cells (slackAfter t d l) })

variable {p b t d l} {u : Slot n} {i j : Fin n}

theorem rowAfter_append {root : Fin n} (hm : b.Seated root) (hu : u ∉ l) (hc : t.hasSlot u = true)
    (hi : b.rowAt u = some i) :
    rowAfter p b t d (l ++ [u]) = Function.update (rowAfter p b t d l) i (rowAfter p b t d l i + d) := by
  funext k
  by_cases hk : k = i
  · subst hk
    -- the row is in the slot `u` only, so it has not been shifted yet
    have hnot : ¬∃ v ∈ l, t.hasSlot v = true ∧ b.rowAt v = some k := by
      rintro ⟨v, hv, -, hvk⟩
      exact hu (hm.unique hvk hi ▸ hv)
    simp [rowAfter, hnot, hc, hi]
  · have hne : b.rowAt u ≠ some k := by
      rintro e
      exact hk (Option.some.inj (e.symm.trans hi))
    simp [rowAfter, hk, hne, List.mem_append, or_and_right, exists_or]

theorem slotAfter_append (hu : u ∉ l) (hc : t.hasSlot u = true) :
    slotAfter p t d (l ++ [u]) = Function.update (slotAfter p t d l) u (slotAfter p t d l u - d) := by
  funext v
  by_cases hv : v = u
  · subst hv
    simp [slotAfter, hu, hc]
  · simp [slotAfter, hv]

theorem slackAfter_append (hj : some j ∉ l) (hc : t.hasSlot (some j) = false) :
    slackAfter t d (l ++ [some j]) =
      Function.update (slackAfter t d l) j (slackAfter t d l j - d) := by
  funext k
  by_cases hk : k = j
  · subst hk
    simp [slackAfter, hj, hc]
  · simp [slackAfter, hk]

/-- A slot outside the tree leaves the potentials as they are. -/
theorem rowAfter_append_outside (hc : t.hasSlot u = false) :
    rowAfter p b t d (l ++ [u]) = rowAfter p b t d l := by
  funext k
  simp [rowAfter, hc, or_and_right, exists_or]

theorem slotAfter_append_outside (hc : t.hasSlot u = false) :
    slotAfter p t d (l ++ [u]) = slotAfter p t d l := by
  funext v
  by_cases hv : v = u
  · subst hv
    simp [slotAfter, hc]
  · simp [slotAfter, hv]

/-- A slot in the tree leaves the slacks as they are. -/
theorem slackAfter_append_inside (hc : t.hasSlot u = true) :
    slackAfter t d (l ++ [u]) = slackAfter t d l := by
  funext k
  by_cases hk : some k = u
  · subst hk
    simp [slackAfter, hc]
  · simp [slackAfter, hk]

/-! ## One slot more -/

/-- Shifting a slot, where each slot of the tree has a row and no row is in two slots. -/
theorem shift_shifted {root : Fin n} (hm : b.Seated root)
    (hrow : ∀ u, t.Has u → ∃ i, b.rowAt u = some i) (hu : u ∉ l) :
    shift d (shifted p b t d l) (number u) = some (shifted p b t d (l ++ [u])) := by
  have hcols : (shifted p b t d l).2.cols[number u]? = some (t.hasSlot u) := getElem?_slots _ u
  unfold shift
  rw [hcols]
  cases hc : t.hasSlot u
  · -- a slot outside the tree is a column
    cases u with
    | none => cases hc
    | some j =>
      have hread : (shifted p b t d l).2.slack[j.val]? = some (slackAfter t d l j) := getElem?_cells _ j
      have hwrite : write (shifted p b t d l).2.slack j (slackAfter t d l j - d) = _ := write_cells _ j _
      simp only [number_some, hread, hwrite, Option.bind_eq_bind, Option.bind_some, Bool.false_eq_true,
        if_false, ← slackAfter_append hu hc]
      unfold shifted
      rw [rowAfter_append_outside hc, slotAfter_append_outside hc]
      rfl
  · obtain ⟨i, hi⟩ := hrow u (SearchTree.hasSlot_eq_true_iff.1 hc)
    have hrowOf : (shifted p b t d l).1.rowOf[number u]? = some (some i.val) := by
      refine (getElem?_slots _ u).trans ?_
      rw [hi, Option.map_some]
    have hreadRow : (shifted p b t d l).1.row[i.val]? = some (rowAfter p b t d l i) := getElem?_cells _ i
    have hreadSlot : (shifted p b t d l).1.col[number u]? = some (slotAfter p t d l u) :=
      getElem?_slots _ u
    have hwriteRow : write (shifted p b t d l).1.row i (rowAfter p b t d l i + d) = _ := write_cells _ i _
    have hwriteSlot : write (shifted p b t d l).1.col (number u) (slotAfter p t d l u - d) = _ :=
      write_slots _ u _
    simp only [hrowOf, hreadRow, hreadSlot, hwriteRow, hwriteSlot, Option.bind_eq_bind, Option.bind_some,
      if_true, ← rowAfter_append hm hu hc hi, ← slotAfter_append hu hc]
    unfold shifted
    rw [slackAfter_append_inside hc]
    rfl

/-! ## All slots -/

theorem shifted_nil : shifted p b t d [] = (State.of p b, Tree.of t) := by
  have hrow : rowAfter p b t d [] = fun i => (p.row.get i) := by funext i; simp [rowAfter]
  have hslot : slotAfter p t d [] = p.slot := by funext u; simp [slotAfter]
  have hslack : slackAfter t d [] = fun j => (t.slack.get j) := by funext j; simp [slackAfter]
  unfold shifted
  rw [hrow, hslot, hslack]
  rfl

theorem foldlM_shift {root : Fin n} (hm : b.Seated root)
    (hrow : ∀ u, t.Has u → ∃ i, b.rowAt u = some i) (hl : l.Nodup) :
    (l.map number).foldlM (shift d) (State.of p b, Tree.of t) = some (shifted p b t d l) := by
  induction l using List.reverseRecOn with
  | nil => rw [shifted_nil]; rfl
  | append_singleton l u ih =>
    obtain ⟨hl, -, hdisj⟩ := List.nodup_append.1 hl
    have hu : u ∉ l := fun h => hdisj u h u (List.mem_singleton_self u) rfl
    rw [List.map_append, List.foldlM_append, ih hl]
    show ([number u].foldlM (shift d) (shifted p b t d l)) = _
    rw [List.foldlM_cons, shift_shifted hm hrow hu]
    rfl

theorem shifted_allSlots (hrows : ∀ i, t.rows.get i = true ↔ ∃ u, t.Has u ∧ b.rowAt u = some i) :
    shifted p b t d (allSlots n) = (State.of (p.raise t d) b, Tree.of (t.lower d)) := by
  have hrow : rowAfter p b t d (allSlots n) = fun i => ((p.raise t d).row.get i) := by
    funext i
    rw [Potentials.raise_row, rowAfter]
    congr 1
    rw [hrows i]
    simp [mem_allSlots, SearchTree.hasSlot_eq_true_iff]
  have hslot : slotAfter p t d (allSlots n) = (p.raise t d).slot := by
    funext u
    cases u <;> simp [slotAfter, mem_allSlots, Potentials.slot, SearchTree.hasSlot, Potentials.raise]
  have hslack : slackAfter t d (allSlots n) = fun j => ((t.lower d).slack.get j) := by
    funext j
    rw [SearchTree.lower_slack]
    cases hj : t.cols.get j <;> simp [slackAfter, mem_allSlots, SearchTree.hasSlot, hj]
  unfold shifted
  rw [hrow, hslot, hslack]
  rfl

end

/-- Adjusting by the slack of the nearest column raises the potentials and lowers the tree. -/
theorem adjust_of {c : Costs n} {b : Matching n} {root : Fin n} (hm : b.Seated root) {s : Search n}
    (hs : s.Inv c b) {d : Int} (hd : 0 ≤ d) (j : Nat) :
    adjust n (State.of s.potentials b) ⟨Tree.of s.tree, d, j⟩ =
      some (State.of (s.raise d).potentials b, Tree.of (s.raise d).tree) := by
  unfold adjust
  rcases Int.lt_or_eq_of_le hd with hpos | rfl
  · simp only [if_pos hpos]
    rw [range_succ_eq_map, foldlM_shift hm hs.matched nodup_allSlots, shifted_allSlots hs.rows]
    rfl
  · simp [Search.raise]

end LinearAssignment.Indexed
