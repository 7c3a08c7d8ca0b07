/-
The search for an unmatched column. From a free row in the root, over potentials that support the
matching, the search always reaches an unmatched column, with potentials that still support the
matching and a way of tight positions from that column to the root.

The invariant: the tree rows are the rows of the tree slots, every tree slot has a row and a way to
the root inside the tree, each column is reached from a tree slot whose row has its slack, and no
tree row has less. Raising by the least slack keeps this, and so does adding the column of least
slack with its row once that slack is zero.
-/
import LinearAssignment.Search.Growth
import LinearAssignment.Proofs.Duality
import LinearAssignment.Proofs.Pointers

namespace LinearAssignment

variable {n : Nat}

/-- Feasible potentials under which the matched positions are tight. -/
structure Potentials.Supports (p : Potentials n) (c : Costs n) (m : Matching n) : Prop where
  feasible : p.Feasible c
  tight : ∀ i j : Fin n, m.rowOf.get j = some i → p.reduced c i j = 0

/-- A matching with a row in the root and no row in two slots. -/
structure Matching.Seated (m : Matching n) (root : Fin n) : Prop where
  root : m.rootRow = some root
  unique : ∀ {s t : Slot n} {i : Fin n}, m.rowAt s = some i → m.rowAt t = some i → s = t

theorem Matching.seat_seated {m : Matching n} (h : m.Consistent) {root : Fin n}
    (hr : m.colOf.get root = none) : (m.seat root).Seated root :=
  ⟨rfl, rowAt_seat_unique h hr⟩

/-- With a row in the root some column is unmatched: otherwise the columns would have all rows, and
the row in the root is one more. -/
theorem Matching.Seated.exists_free {m : Matching n} {root : Fin n} (hm : m.Seated root) :
    ∃ j : Fin n, m.rowOf.get j = none := by
  by_contra hall
  have hrow : ∀ j : Fin n, ∃ i, m.rowOf.get j = some i := fun j =>
    Option.ne_none_iff_exists'.1 fun hj => hall ⟨j, hj⟩
  choose f hf using hrow
  -- the rows of the columns are all rows, so one of them is in the root as well
  have hinj : Function.Injective f := fun a b hab =>
    Option.some.inj (hm.unique (s := some a) (t := some b) (hf a) (hab ▸ hf b))
  obtain ⟨j, hj⟩ := Finite.injective_iff_surjective.1 hinj root
  have hslot : (some j : Slot n) = none := hm.unique (i := root) (hj ▸ hf j) hm.root
  cases hslot

theorem Way.congr {via via' : Vector (Slot n) n} {s : Slot n} {l : List (Fin n)} (h : Way via s l)
    (hv : ∀ k ∈ l, via'.get k = via.get k) : Way via' s l := by
  induction h with
  | root => exact .root
  | @column j l _ hj ih =>
    have hw := ih fun k hk => hv k (List.mem_cons_of_mem _ hk)
    rw [← hv j List.mem_cons_self] at hw
    exact .column hw hj

namespace SearchTree

/-- Whether a slot is in the tree; the root always is. -/
def Has (t : SearchTree n) : Slot n → Prop
  | none => True
  | some j => t.cols.get j = true

@[simp] theorem absorb_rows (t : SearchTree n) (j r : Fin n) (f : Fin n → Int) (i : Fin n) :
    (t.absorb j r f).rows.get i = if i = r then true else t.rows.get i := get_set _ _ _ _

@[simp] theorem absorb_cols (t : SearchTree n) (j r : Fin n) (f : Fin n → Int) (k : Fin n) :
    (t.absorb j r f).cols.get k = if k = j then true else t.cols.get k := get_set _ _ _ _

theorem absorb_slack (t : SearchTree n) (j r : Fin n) (f : Fin n → Int) (k : Fin n) :
    (t.absorb j r f).slack.get k =
      if (t.absorb j r f).cols.get k then t.slack.get k else min (t.slack.get k) (f k) := by
  simp [absorb]

theorem absorb_via (t : SearchTree n) (j r : Fin n) (f : Fin n → Int) (k : Fin n) :
    (t.absorb j r f).via.get k =
      if (t.absorb j r f).cols.get k = false ∧ f k < t.slack.get k then some j else t.via.get k := by
  simp [absorb]

theorem has_absorb_iff {t : SearchTree n} {j r : Fin n} {f : Fin n → Int} {s : Slot n} :
    (t.absorb j r f).Has s ↔ t.Has s ∨ s = some j := by
  cases s with
  | none => exact ⟨fun _ => .inl trivial, fun _ => trivial⟩
  | some k =>
    show (t.absorb j r f).cols.get k = true ↔ t.cols.get k = true ∨ some k = some j
    rw [absorb_cols]
    by_cases e : k = j <;> simp [e]

theorem Has.absorb {t : SearchTree n} {j r : Fin n} {f : Fin n → Int} {s : Slot n} (h : t.Has s) :
    (t.absorb j r f).Has s := has_absorb_iff.2 (.inl h)

theorem absorb_has_new (t : SearchTree n) (j r : Fin n) (f : Fin n → Int) :
    (t.absorb j r f).Has (some j) := has_absorb_iff.2 (.inr rfl)

/-- The columns of the tree, the new one included, keep their pointers. -/
theorem absorb_via_of_mem {t : SearchTree n} {j r : Fin n} {f : Fin n → Int} {k : Fin n}
    (hk : (t.absorb j r f).cols.get k = true) : (t.absorb j r f).via.get k = t.via.get k := by
  rw [absorb_via, if_neg]
  rintro ⟨hout, -⟩
  rw [hk] at hout
  cases hout

@[simp] theorem lower_slack (t : SearchTree n) (d : Int) (k : Fin n) :
    (t.lower d).slack.get k = if t.cols.get k then t.slack.get k else t.slack.get k - d := by
  simp [lower]

theorem nearest?_some {t : SearchTree n} {j : Fin n} (h : t.nearest? = some j) :
    t.cols.get j = false ∧ ∀ k : Fin n, t.cols.get k = false → t.slack.get j ≤ t.slack.get k := by
  refine ⟨mem_outside.1 (nearest?_mem h), fun k hk => ?_⟩
  have hle := List.apply_minOn_le_of_mem (f := fun j : Fin n => (t.slack.get j)) (mem_outside.2 hk)
  rwa [List.minOn_eq_of_minOn?_eq_some h] at hle

theorem nearest?_none {t : SearchTree n} (h : t.nearest? = none) (k : Fin n) : t.cols.get k = true := by
  by_contra hk
  have hm : k ∈ t.outside := mem_outside.2 (by simpa using hk)
  have hs : t.nearest?.isSome := List.isSome_minOn?_of_mem hm
  rw [h] at hs
  cases hs

end SearchTree

@[simp] theorem Potentials.raise_row (p : Potentials n) (t : SearchTree n) (d : Int) (i : Fin n) :
    (p.raise t d).row.get i = if t.rows.get i then p.row.get i + d else p.row.get i := by
  simp [raise]

@[simp] theorem Potentials.raise_col (p : Potentials n) (t : SearchTree n) (d : Int) (j : Fin n) :
    (p.raise t d).col.get j = if t.cols.get j then p.col.get j - d else p.col.get j := by
  simp [raise]

@[simp] theorem SearchTree.lower_zero (t : SearchTree n) : t.lower 0 = t := by
  unfold lower
  simp only [Int.sub_zero, ite_self, ofFn_get]

@[simp] theorem Potentials.raise_zero (p : Potentials n) (t : SearchTree n) : p.raise t 0 = p := by
  unfold raise
  simp only [Int.add_zero, Int.sub_zero, ite_self, ofFn_get]

/-- A raise lowers the reduced costs of the tree rows and lifts those of the tree columns. -/
theorem Potentials.reduced_raise (p : Potentials n) (t : SearchTree n) (d : Int) (c : Costs n)
    (i j : Fin n) : (p.raise t d).reduced c i j =
      p.reduced c i j - (if t.rows.get i then d else 0) + (if t.cols.get j then d else 0) := by
  unfold reduced
  rw [raise_row, raise_col]
  split <;> split <;> omega

namespace Search

/-! ## The invariant -/

/-- The state of a search over the matching `m`. -/
structure Inv (c : Costs n) (m : Matching n) (s : Search n) : Prop where
  supports : s.potentials.Supports c m
  rows : ∀ i : Fin n, s.tree.rows.get i = true ↔ ∃ t, s.tree.Has t ∧ m.rowAt t = some i
  matched : ∀ t, s.tree.Has t → ∃ i, m.rowAt t = some i
  way : ∀ t, s.tree.Has t → ∃ l, Way s.tree.via t l ∧ ∀ k ∈ l, s.tree.cols.get k = true
  via : ∀ j : Fin n, s.tree.Has (s.tree.via.get j)
  reached : ∀ i j : Fin n, m.rowAt (s.tree.via.get j) = some i →
    s.potentials.reduced c i j = if s.tree.cols.get j then 0 else s.tree.slack.get j
  slack_le : ∀ i j : Fin n, s.tree.rows.get i = true → s.tree.cols.get j = false →
    s.tree.slack.get j ≤ s.potentials.reduced c i j

variable {c : Costs n} {m : Matching n} {s : Search n} {root : Fin n}

theorem Inv.row_mem (h : s.Inv c m) {i j : Fin n} (hi : m.rowAt (s.tree.via.get j) = some i) :
    s.tree.rows.get i = true :=
  (h.rows i).2 ⟨s.tree.via.get j, h.via j, hi⟩

theorem Inv.row_mem_iff (h : s.Inv c m) (hm : m.Seated root) {i j : Fin n}
    (hj : m.rowOf.get j = some i) : s.tree.rows.get i = true ↔ s.tree.cols.get j = true := by
  rw [h.rows]
  constructor
  · rintro ⟨t, ht, hti⟩
    have e : t = some j := hm.unique hti hj
    rw [e] at ht
    exact ht
  · exact fun hc => ⟨some j, hc, hj⟩

theorem Inv.slack_nonneg (h : s.Inv c m) {j : Fin n} (hj : s.tree.cols.get j = false) :
    0 ≤ s.tree.slack.get j := by
  obtain ⟨i, hi⟩ := h.matched _ (h.via j)
  have hr := h.reached i j hi
  rw [if_neg (by simp [hj])] at hr
  rw [← hr]
  exact h.supports.feasible i j

theorem Inv.outside_of_free (h : s.Inv c m) {j : Fin n} (hj : m.rowOf.get j = none) :
    s.tree.cols.get j = false := by
  refine eq_false_of_ne_true fun hc => ?_
  obtain ⟨i, hi⟩ := h.matched (some j) hc
  have hi' : m.rowOf.get j = some i := hi
  rw [hj] at hi'
  cases hi'

theorem start_inv {p : Potentials n} (hm : m.Seated root) (hp : p.Supports c m) :
    (start c p root).Inv c m := by
  have hhas : ∀ t, (start c p root).tree.Has t ↔ t = none := by
    intro t
    cases t <;> simp [start, SearchTree.start, SearchTree.Has]
  have hrows : ∀ i : Fin n, (start c p root).tree.rows.get i = true ↔ i = root := by
    intro i
    show ((Vector.replicate n false).set root true root.isLt).get i = true ↔ i = root
    rw [get_set]
    by_cases e : i = root <;> simp [e]
  have hvia : ∀ j : Fin n, (start c p root).tree.via.get j = none := by
    intro j; simp [start, SearchTree.start]
  have hcols : ∀ j : Fin n, (start c p root).tree.cols.get j = false := by
    intro j; simp [start, SearchTree.start]
  have hslack : ∀ j : Fin n, (start c p root).tree.slack.get j = p.reduced c root j := by
    intro j; simp [start, SearchTree.start]
  refine ⟨hp, fun i => ?_, fun t ht => ?_, fun t ht => ?_, fun j => ?_, fun i j hi => ?_,
    fun i j hi _ => ?_⟩
  · rw [hrows]
    constructor
    · rintro rfl
      exact ⟨none, trivial, hm.root⟩
    · rintro ⟨t, ht, hti⟩
      rw [(hhas t).1 ht] at hti
      exact Option.some.inj (hti.symm.trans hm.root)
  · rw [(hhas t).1 ht]
    exact ⟨root, hm.root⟩
  · rw [(hhas t).1 ht]
    exact ⟨[], .root, fun _ hk => by cases hk⟩
  · rw [hvia]
    trivial
  · rw [hvia] at hi
    rw [if_neg (by simp [hcols]), hslack, Option.some.inj (hi.symm.trans hm.root)]
    rfl
  · rw [hslack, (hrows i).1 hi]
    exact Int.le_refl _

/-! ## One round -/

/-- A raise by no more than the slacks outside keeps the invariant. -/
theorem Inv.raise (h : s.Inv c m) (hm : m.Seated root) {d : Int} (hd : 0 ≤ d)
    (hle : ∀ k : Fin n, s.tree.cols.get k = false → d ≤ s.tree.slack.get k) : (s.raise d).Inv c m := by
  have hred : ∀ i j, (s.raise d).potentials.reduced c i j = s.potentials.reduced c i j -
      (if s.tree.rows.get i then d else 0) + (if s.tree.cols.get j then d else 0) := fun i j =>
    s.potentials.reduced_raise s.tree d c i j
  have hslack : ∀ k : Fin n, (s.raise d).tree.slack.get k =
      if s.tree.cols.get k then s.tree.slack.get k else s.tree.slack.get k - d := s.tree.lower_slack d
  refine ⟨⟨fun i j => ?_, fun i j hij => ?_⟩, h.rows, h.matched, h.way, h.via, fun i j hi => ?_,
    fun i j hi hj => ?_⟩
  · -- only tree rows get cheaper, at columns outside, and there by no more than the slack
    have hf := h.supports.feasible i j
    rw [hred]
    cases hi : s.tree.rows.get i <;> cases hj : s.tree.cols.get j
    · simpa using hf
    · simp only [Bool.false_eq_true, if_false, if_true]; omega
    · have := hle j hj
      have := h.slack_le i j hi hj
      simp only [Bool.false_eq_true, if_false, if_true]; omega
    · simp only [if_true]; omega
  · -- a matched position is inside or outside with both its row and its column
    have ht := h.supports.tight i j hij
    have hiff := h.row_mem_iff hm hij
    rw [hred, ht]
    by_cases hj : s.tree.cols.get j = true
    · rw [if_pos hj, if_pos (hiff.2 hj)]; omega
    · rw [if_neg hj, if_neg (fun e => hj (hiff.1 e))]; omega
  · have hr := h.reached i j hi
    show _ = if s.tree.cols.get j then 0 else ((s.raise d).tree.slack.get j)
    rw [hred, hr, hslack, if_pos (h.row_mem hi)]
    by_cases hj : s.tree.cols.get j = true
    · simp only [if_pos hj]; omega
    · simp only [if_neg hj]; omega
  · have hi' : s.tree.rows.get i = true := hi
    have hj' : s.tree.cols.get j = false := hj
    have := h.slack_le i j hi' hj'
    rw [hslack, hred]
    simp only [hi', hj', Bool.false_eq_true, if_false, if_true]
    omega

section Absorb

variable {j r : Fin n}

theorem Inv.absorb_rows (h : s.Inv c m) (hr : m.rowOf.get j = some r) (f : Fin n → Int) (i : Fin n) :
    (s.tree.absorb j r f).rows.get i = true ↔
      ∃ t, (s.tree.absorb j r f).Has t ∧ m.rowAt t = some i := by
  rw [SearchTree.absorb_rows]
  by_cases e : i = r
  · subst e
    rw [if_pos rfl]
    exact iff_of_true rfl ⟨some j, s.tree.absorb_has_new j i f, hr⟩
  · rw [if_neg e, h.rows]
    constructor
    · rintro ⟨t, ht, hti⟩
      exact ⟨t, ht.absorb, hti⟩
    · rintro ⟨t, ht, hti⟩
      rcases SearchTree.has_absorb_iff.1 ht with ht | rfl
      · exact ⟨t, ht, hti⟩
      · exact absurd (Option.some.inj (hti.symm.trans hr)) e

theorem Inv.absorb_way (h : s.Inv c m) (hj : s.tree.cols.get j = false) (f : Fin n → Int) (t : Slot n)
    (ht : (s.tree.absorb j r f).Has t) : ∃ l, Way (s.tree.absorb j r f).via t l ∧
      ∀ k ∈ l, (s.tree.absorb j r f).cols.get k = true := by
  have hmem : ∀ k, s.tree.cols.get k = true → (s.tree.absorb j r f).cols.get k = true := fun k hk =>
    SearchTree.Has.absorb (s := some k) hk
  -- the ways of the old tree are still there, as their columns keep their pointers
  have hold : ∀ t, s.tree.Has t → ∃ l, Way (s.tree.absorb j r f).via t l ∧
      ∀ k ∈ l, s.tree.cols.get k = true := by
    intro t ht
    obtain ⟨l, hl, hk⟩ := h.way t ht
    exact ⟨l, hl.congr fun k hkl => SearchTree.absorb_via_of_mem (hmem k (hk k hkl)), hk⟩
  rcases SearchTree.has_absorb_iff.1 ht with ht | rfl
  · obtain ⟨l, hl, hk⟩ := hold t ht
    exact ⟨l, hl, fun k hkl => hmem k (hk k hkl)⟩
  · -- the way of the new column starts with it and goes on inside the old tree
    obtain ⟨l, hl, hk⟩ := hold _ (h.via j)
    have hjl : j ∉ l := by
      intro hm
      have hin := hk j hm
      rw [hj] at hin
      cases hin
    have hnew : (s.tree.absorb j r f).cols.get j = true := s.tree.absorb_has_new j r f
    rw [← SearchTree.absorb_via_of_mem hnew] at hl
    refine ⟨j :: l, .column hl hjl, fun k hkl => ?_⟩
    rcases List.mem_cons.1 hkl with rfl | hkl
    · exact hnew
    · exact hmem k (hk k hkl)

theorem Inv.absorb_reached (h : s.Inv c m) (hr : m.rowOf.get j = some r) (h0 : s.tree.slack.get j = 0)
    {i k : Fin n}
    (hi : m.rowAt ((s.tree.absorb j r (s.potentials.reduced c r)).via.get k) = some i) :
    s.potentials.reduced c i k =
      if (s.tree.absorb j r (s.potentials.reduced c r)).cols.get k then 0
      else (s.tree.absorb j r (s.potentials.reduced c r)).slack.get k := by
  by_cases hk : (s.tree.absorb j r (s.potentials.reduced c r)).cols.get k = true
  · rw [SearchTree.absorb_via_of_mem hk] at hi
    rw [if_pos hk, h.reached i k hi]
    by_cases e : k = j
    · subst e
      rw [h0, ite_self]
    · rw [SearchTree.absorb_cols, if_neg e] at hk
      exact if_pos hk
  · rw [if_neg hk, SearchTree.absorb_slack, if_neg hk]
    rw [SearchTree.absorb_via] at hi
    -- outside, either the new row lowers the slack and takes over the pointer, or nothing changes
    by_cases hlt : s.potentials.reduced c r k < s.tree.slack.get k
    · rw [if_pos ⟨eq_false_of_ne_true hk, hlt⟩] at hi
      rw [Int.min_eq_right (Int.le_of_lt hlt), Option.some.inj (hr.symm.trans hi)]
    · rw [if_neg fun hc => hlt hc.2] at hi
      rw [Int.min_eq_left (Int.not_lt.1 hlt), h.reached i k hi]
      exact if_neg fun hc => hk (SearchTree.Has.absorb (s := some k) hc)

theorem Inv.absorb_slack_le (h : s.Inv c m) {i k : Fin n}
    (hi : (s.tree.absorb j r (s.potentials.reduced c r)).rows.get i = true)
    (hk : (s.tree.absorb j r (s.potentials.reduced c r)).cols.get k = false) :
    (s.tree.absorb j r (s.potentials.reduced c r)).slack.get k ≤ s.potentials.reduced c i k := by
  have hout : s.tree.cols.get k = false := by
    rw [SearchTree.absorb_cols] at hk
    split at hk
    · cases hk
    · exact hk
  rw [SearchTree.absorb_slack, if_neg (by simp [hk])]
  rw [SearchTree.absorb_rows] at hi
  by_cases e : i = r
  · subst e
    exact Int.min_le_right _ _
  · rw [if_neg e] at hi
    exact Int.le_trans (Int.min_le_left _ _) (h.slack_le i k hi hout)

/-- Adding a column without slack and its row keeps the invariant. -/
theorem Inv.absorb (h : s.Inv c m) (hj : s.tree.cols.get j = false) (hr : m.rowOf.get j = some r)
    (h0 : s.tree.slack.get j = 0) : (s.absorb c j r).Inv c m := by
  refine ⟨h.supports, h.absorb_rows hr _, fun t ht => ?_, h.absorb_way hj _, fun k => ?_,
    fun i k hi => h.absorb_reached hr h0 hi, fun i k hi hk => h.absorb_slack_le hi hk⟩
  · rcases SearchTree.has_absorb_iff.1 ht with ht | rfl
    · exact h.matched t ht
    · exact ⟨r, hr⟩
  · show (s.tree.absorb j r _).Has ((s.tree.absorb j r _).via.get k)
    rw [SearchTree.absorb_via]
    split
    · exact s.tree.absorb_has_new j r _
    · exact (h.via k).absorb

end Absorb

/-! ## The whole search -/

/-- The tree never has all columns, as the unmatched ones stay outside. -/
theorem Inv.exists_outside (h : s.Inv c m) (hm : m.Seated root) :
    ∃ j : Fin n, s.tree.cols.get j = false := by
  obtain ⟨j, hj⟩ := hm.exists_free
  exact ⟨j, h.outside_of_free hj⟩

/-- A search at the end, at the unmatched column `j`. -/
structure Found (c : Costs n) (m : Matching n) (j : Fin n) (s : Search n) : Prop where
  inv : s.Inv c m
  free : m.rowOf.get j = none
  slack : s.tree.slack.get j = 0

theorem Inv.raise_nearest (h : s.Inv c m) (hm : m.Seated root) {j : Fin n}
    (hj : s.tree.nearest? = some j) : (s.raise (s.tree.slack.get j)).Inv c m ∧
      (s.raise (s.tree.slack.get j)).tree.cols.get j = false ∧
      (s.raise (s.tree.slack.get j)).tree.slack.get j = 0 := by
  obtain ⟨hout, hle⟩ := SearchTree.nearest?_some hj
  refine ⟨h.raise hm (h.slack_nonneg hout) hle, hout, ?_⟩
  show (s.tree.lower (s.tree.slack.get j)).slack.get j = 0
  rw [SearchTree.lower_slack, if_neg (by simp [hout]), Int.sub_self]

/-- The search reaches an unmatched column. -/
theorem grow_found (hm : m.Seated root) (s : Search n) (h : s.Inv c m) :
    ∃ j found, grow c m s = some (j, found) ∧ Found c m j found := by
  fun_induction grow c m s with
  | case1 s hnone =>
    -- the search does not run out of columns
    obtain ⟨j, hj⟩ := h.exists_outside hm
    rw [SearchTree.nearest?_none hnone j] at hj
    cases hj
  | case2 s j hj raised hfree =>
    obtain ⟨hinv, -, h0⟩ := h.raise_nearest hm hj
    exact ⟨j, raised, rfl, hinv, hfree, h0⟩
  | case3 s j hj raised r hr ih =>
    obtain ⟨hinv, hout, h0⟩ := h.raise_nearest hm hj
    exact ih (hinv.absorb hout hr h0)

/-- From the unmatched column a way of matched columns leads to the root. -/
theorem Found.exists_way {j : Fin n} (h : Found c m j s) :
    ∃ l, Way s.tree.via (some j) l ∧ ∀ k ∈ l, k ≠ j → s.tree.cols.get k = true := by
  obtain ⟨l, hl, hk⟩ := h.inv.way _ (h.inv.via j)
  have hjl : j ∉ l := fun hm => by
    have hin := hk j hm
    rw [h.inv.outside_of_free h.free] at hin
    cases hin
  refine ⟨j :: l, .column hl hjl, fun k hkl hne => ?_⟩
  rcases List.mem_cons.1 hkl with rfl | hkl
  · exact absurd rfl hne
  · exact hk k hkl

theorem Found.tight {j : Fin n} (h : Found c m j s) {i k : Fin n}
    (hk : k = j ∨ s.tree.cols.get k = true) (hi : m.rowAt (s.tree.via.get k) = some i) :
    s.potentials.reduced c i k = 0 := by
  rw [h.inv.reached i k hi]
  rcases hk with rfl | hk
  · rw [h.slack, ite_self]
  · exact if_pos hk

end Search

end LinearAssignment
