/-
One round of a search over numbered vectors. When the vectors are those of potentials, a matching and a
tree, no access in it fails: looking through the columns from a new tree row gives the vectors of the
tree that has absorbed the row, with its nearest column, and shifting by the least slack gives the
vectors of the raised potentials and tree.
-/
import LinearAssignment.Proofs.Indexed.Basic
import LinearAssignment.Proofs.Bounds

namespace LinearAssignment

variable {n : Nat}

/-- The potential of a column or of the root. -/
def Potentials.slot (p : Potentials n) : Slot n → Int
  | none => p.root
  | some j => p.col.get j

/-- Whether a slot is in the tree, as a truth value. -/
def SearchTree.hasSlot (t : SearchTree n) : Slot n → Bool
  | none => true
  | some j => t.cols.get j

theorem SearchTree.hasSlot_eq_true_iff {t : SearchTree n} {u : Slot n} : t.hasSlot u = true ↔ t.Has u := by
  cases u with
  | none => exact iff_of_true rfl trivial
  | some j => exact Iff.rfl

namespace Indexed

/-- The vectors of potentials and a matching. -/
def State.of (p : Potentials n) (m : Matching n) : State where
  row := cells fun i => (p.row.get i)
  col := slots p.slot
  rowOf := slots fun u => (m.rowAt u).map Fin.val
  colOf := cells fun i => (m.colOf.get i).map Fin.val

/-- The vectors of a search tree. -/
def Tree.of (t : SearchTree n) : Tree where
  slack := cells fun j => (t.slack.get j)
  via := cells fun j => number (t.via.get j)
  cols := slots t.hasSlot

/-! ## Looking through the columns -/

/-- The slack and the pointer of each column. -/
abbrev Reach (n : Nat) := Fin n → Int × Slot n

section
variable (cols : Slot n → Bool) (u : Slot n) (f : Fin n → Int)

/-- How column `k` is reached when there is a new tree row in slot `u`, whose reduced costs are `f`. -/
def Reach.via (r : Reach n) (k : Fin n) : Int × Slot n :=
  if cols (some k) = false ∧ f k < (r k).1 then (f k, u) else r k

/-- The nearer of the column at hand and column `k` with slack `d k`. -/
def nearer (d : Fin n → Int) (best : Int × Slot n) (k : Fin n) : Int × Slot n :=
  if d k < best.1 then (d k, some k) else best

/-- The vectors of a tree with the slots `cols` that reaches the columns by `r`. -/
def Tree.ofReach (r : Reach n) : Tree :=
  ⟨cells fun j => (r j).1, cells fun j => number (r j).2, slots cols⟩

theorem Tree.blank_eq : Tree.blank n = .ofReach (fun _ => false) fun _ => (unreached, (none : Slot n)) := by
  unfold Tree.blank Tree.ofReach
  rw [replicate_eq_cells, replicate_eq_cells, replicate_eq_slots]
  simp only [number_none]

/-- The vectors in the middle of looking through the columns. -/
def Scan.of (a : Reach n × Int × Slot n) : Scan := ⟨.ofReach cols a.1, a.2.1, number a.2.2⟩

/-- What looking at column `j` does. -/
def lookAt (a : Reach n × Int × Slot n) (j : Fin n) : Reach n × Int × Slot n :=
  (Function.update a.1 j (a.1.via cols u f j),
    if cols (some j) then a.2 else nearer (fun k => (a.1.via cols u f k).1) a.2 j)

variable {cols u f}

theorem relax_ofReach {r : Reach n} {j : Fin n} (hj : cols (some j) = false) :
    relax (number u) (f j) j (.ofReach cols r) =
      some (.ofReach cols (Function.update r j (r.via cols u f j))) := by
  have hslack := write_cells_map (fun p : Int × Slot n => p.1) r j (f j, u)
  have hvia := write_cells_map (fun p : Int × Slot n => number p.2) r j (f j, u)
  unfold relax Tree.ofReach Reach.via
  simp only [getElem?_cells, Option.bind_eq_bind, Option.bind_some]
  by_cases hlt : f j < (r j).1
  · rw [if_pos hlt, if_pos ⟨hj, hlt⟩, hslack, Option.bind_some, hvia]
    rfl
  · rw [if_neg hlt, if_neg fun h => hlt h.2, Function.update_eq_self]
    rfl

theorem Reach.via_congr {r r' : Reach n} {j : Fin n} (h : r j = r' j) :
    r.via cols u f j = r'.via cols u f j := by
  unfold Reach.via
  rw [h]

/-- What looking at the columns of a list does. -/
theorem foldl_lookAt (a : Reach n × Int × Slot n) {l : List (Fin n)} (hl : l.Nodup) :
    l.foldl (lookAt cols u f) a =
      (fun k => if k ∈ l then a.1.via cols u f k else a.1 k,
        (l.filter fun k => !cols (some k)).foldl (nearer fun k => (a.1.via cols u f k).1) a.2) := by
  induction l using List.reverseRecOn with
  | nil => rfl
  | append_singleton l j ih =>
    obtain ⟨hl, -, hdisj⟩ := List.nodup_append.1 hl
    have hj : j ∉ l := fun h => hdisj j h j (List.mem_singleton_self j) rfl
    have hvia : Reach.via cols u f (fun k => if k ∈ l then a.1.via cols u f k else a.1 k) j =
        a.1.via cols u f j := Reach.via_congr (if_neg hj)
    rw [List.foldl_append, ih hl, List.foldl_cons, List.foldl_nil, lookAt, Prod.mk.injEq]
    constructor
    · funext k
      by_cases hk : k = j
      · subst hk
        simp [hvia]
      · simp [hk]
    · cases hc : cols (some j)
      · simp [nearer, hvia, hc]
      · simp [hc]

end

theorem foldl_nearer_of_some (d : Fin n → Int) :
    ∀ (l : List (Fin n)) (j : Fin n),
      l.foldl (nearer d) (d j, some j) = (d (l.foldl (minOn d) j), some (l.foldl (minOn d) j))
  | [], _ => rfl
  | k :: l, j => by
    have hstep : nearer d (d j, some j) k = (d (minOn d j k), some (minOn d j k)) := by
      unfold nearer minOn
      by_cases h : d j ≤ d k
      · rw [if_pos h, if_neg (Int.not_lt.2 h)]
      · rw [if_neg h, if_pos (Int.not_le.1 h)]
    rw [List.foldl_cons, hstep, foldl_nearer_of_some d l, List.foldl_cons]

/-- From a slack beyond all others the nearest column is found. -/
theorem foldl_nearer {d : Fin n → Int} {l : List (Fin n)} {j : Fin n} (hj : l.minOn? d = some j)
    (hlt : ∀ k ∈ l, d k < unreached) : l.foldl (nearer d) (unreached, none) = (d j, some j) := by
  cases l with
  | nil => rw [List.minOn?_nil] at hj; cases hj
  | cons k l =>
    have hfirst : nearer d (unreached, none) k = (d k, some k) := if_pos (hlt k List.mem_cons_self)
    have hmin : l.foldl (minOn d) k = j := Option.some.inj hj
    rw [List.foldl_cons, hfirst, foldl_nearer_of_some, hmin]

/-! ## One scan -/

section
variable {m : Matrix} (hm : m.Complete) (hs : m.rows = m.cols)
include hm hs

theorem reduced_of (p : Potentials m.rows) (b : Matching m.rows) (i j : Fin m.rows) :
    reduced m (State.of p b) i j = some (p.reduced m.costs i j) := by
  obtain ⟨x, hx, hv⟩ := hm.exists_cell_eq i.isLt (hs ▸ j.isLt : j.val < m.cols)
  have hcol : (slots p.slot)[j.val]? = some (p.col.get j) := getElem?_slots_col p.slot j
  unfold reduced State.of
  rw [hx, getElem?_cells, hcol, Potentials.reduced]
  show some (x.toInt - _ - _) = some (m.entry i j - _ - _)
  rw [hv]

theorem look_of (p : Potentials m.rows) (b : Matching m.rows) (cols : Slot m.rows → Bool)
    (u : Slot m.rows) (i : Fin m.rows) (a : Reach m.rows × Int × Slot m.rows) (j : Fin m.rows) :
    look m (State.of p b) i (number u) (Scan.of cols a) j =
      some (Scan.of cols (lookAt cols u (p.reduced m.costs i) a j)) := by
  have hcol : (Scan.of cols a).tree.cols[j.val]? = some (cols (some j)) := getElem?_slots_col cols j
  unfold look lookAt
  rw [hcol]
  cases hc : cols (some j)
  · have hrelax : relax (number u) (p.reduced m.costs i j) j (Scan.of cols a).tree = _ := relax_ofReach hc
    have hslack : (Tree.ofReach cols
        (Function.update a.1 j (a.1.via cols u (p.reduced m.costs i) j))).slack[j.val]? =
          some (a.1.via cols u (p.reduced m.costs i) j).1 := by
      unfold Tree.ofReach
      rw [getElem?_cells, Function.update_self]
    simp only [reduced_of hm hs, hrelax, hslack, Option.bind_eq_bind, Option.bind_some, nearer]
    by_cases hlt : (a.1.via cols u (p.reduced m.costs i) j).1 < a.2.1
    · simp [Scan.of, hlt]
    · simp [Scan.of, hlt]
  · have hsame : a.1.via cols u (p.reduced m.costs i) j = a.1 j := by
      unfold Reach.via
      rw [hc, if_neg (by simp)]
    rw [hsame, Function.update_eq_self]
    rfl

/-- Taking the slot `u` into the tree gives the vectors of the tree `t`, with its nearest column. -/
theorem scan_of {p : Potentials m.rows} {b : Matching m.rows} {cols : Slot m.rows → Bool}
    {r : Reach m.rows} {u : Slot m.rows} {i j : Fin m.rows} {t : SearchTree m.rows}
    (hi : b.rowAt u = some i) (hcols : Function.update cols u true = t.hasSlot)
    (hreach : ∀ k, r.via t.hasSlot u (p.reduced m.costs i) k = (t.slack.get k, t.via.get k))
    (hj : t.nearest? = some j) (hlt : ∀ k ∈ t.outside, t.slack.get k < unreached) :
    scan m m.rows (State.of p b) (.ofReach cols r) (number u) = some ⟨.of t, t.slack.get j, j⟩ := by
  have hmark : write (Tree.ofReach cols r).cols (number u) true = some (slots t.hasSlot) := by
    rw [← hcols]
    exact write_slots cols u true
  have hrow : (State.of p b).rowOf[number u]? = some (some i.val) := by
    refine (getElem?_slots _ u).trans ?_
    rw [hi, Option.map_some]
  have hfirst : (⟨⟨(Tree.ofReach cols r).slack, (Tree.ofReach cols r).via, slots t.hasSlot⟩, unreached,
      m.rows⟩ : Scan) = Scan.of t.hasSlot (r, unreached, none) := by
    unfold Scan.of Tree.ofReach
    rw [number_none]
  have hlast : Scan.of t.hasSlot (fun k => r.via t.hasSlot u (p.reduced m.costs i) k,
      t.outside.foldl (nearer fun k => (r.via t.hasSlot u (p.reduced m.costs i) k).1) (unreached, none)) =
        ⟨.of t, t.slack.get j, j⟩ := by
    simp only [hreach]
    rw [foldl_nearer (d := fun k => (t.slack.get k)) hj hlt]
    unfold Scan.of Tree.of Tree.ofReach
    rw [number_some]
  unfold scan
  simp only [hmark, hrow, hfirst, Option.bind_eq_bind, Option.bind_some]
  rw [range_eq_map, foldlM_of_step (look_of hm hs p b t.hasSlot u i),
    foldl_lookAt _ (List.nodup_finRange m.rows), ← hlast]
  simp only [List.mem_finRange, if_true]
  rfl

variable {p : Potentials m.rows} {b : Matching m.rows}

/-- The first scan of a search. -/
theorem scan_start {root j : Fin m.rows} (hi : b.rootRow = some root)
    (hj : (SearchTree.start root (p.reduced m.costs root)).nearest? = some j)
    (hlt : ∀ k, p.reduced m.costs root k < unreached) :
    scan m m.rows (State.of p b) (.blank m.rows) m.rows =
      some ⟨.of (.start root (p.reduced m.costs root)),
        (SearchTree.start root (p.reduced m.costs root)).slack.get j, j⟩ := by
  have hslots : (SearchTree.start root (p.reduced m.costs root)).hasSlot =
      Function.update (fun _ => false) none true := by
    funext u
    cases u <;> simp [SearchTree.start, SearchTree.hasSlot]
  have hroot : b.rowAt none = some root := hi
  have h : scan m m.rows (State.of p b) _ (number none) = _ :=
    scan_of hm hs (r := fun _ => (unreached, none)) hroot hslots.symm ?_ hj ?_
  · rw [number_none] at h
    rw [Tree.blank_eq, h]
  · intro k
    unfold Reach.via
    simp [SearchTree.start, SearchTree.hasSlot, hlt k]
  · intro k _
    simpa [SearchTree.start] using hlt k

/-- A later scan, over the vectors of the tree that absorbs the nearest column with its row. -/
theorem scan_absorb {t : SearchTree m.rows} {k i j : Fin m.rows} (hi : b.rowOf.get k = some i)
    (hj : (t.absorb k i (p.reduced m.costs i)).nearest? = some j)
    (hlt : ∀ l ∈ (t.absorb k i (p.reduced m.costs i)).outside,
      (t.absorb k i (p.reduced m.costs i)).slack.get l < unreached) :
    scan m m.rows (State.of p b) (.of t) k =
      some ⟨.of (t.absorb k i (p.reduced m.costs i)),
        (t.absorb k i (p.reduced m.costs i)).slack.get j, j⟩ := by
  have hslots : (t.absorb k i (p.reduced m.costs i)).hasSlot = Function.update t.hasSlot (some k) true := by
    funext u
    cases u with
    | none => rfl
    | some l =>
      simp only [SearchTree.hasSlot, SearchTree.absorb_cols, Function.update_apply, Option.some.injEq]
  have hrow : b.rowAt (some k) = some i := hi
  rw [← number_some]
  apply scan_of (r := fun l => (t.slack.get l, t.via.get l)) hm hs hrow hslots.symm _ hj hlt
  intro l
  rw [SearchTree.absorb_slack, SearchTree.absorb_via, Reach.via]
  -- the new row takes a column over if it is outside and nearer than before
  by_cases hc : (t.absorb k i (p.reduced m.costs i)).cols.get l = true
  · simp [SearchTree.hasSlot, hc]
  · rcases lt_or_ge (p.reduced m.costs i l) (t.slack.get l) with hl | hl
    · simp [SearchTree.hasSlot, hc, hl, Int.min_eq_right (Int.le_of_lt hl)]
    · simp [SearchTree.hasSlot, hc, Int.not_lt.2 hl, Int.min_eq_left hl]

end

end Indexed

end LinearAssignment
