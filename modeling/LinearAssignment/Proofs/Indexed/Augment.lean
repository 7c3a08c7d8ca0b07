/-
Searches over numbered vectors succeed. With one round more than there are matched columns, and as many
steps along the pointers, a search of the run on a square matrix reaches its column without a row and
comes back to the root: no access fails, every tree column has its row, and every round takes a real
column outside the tree, with a slack that a row has given it.
-/
import LinearAssignment.Proofs.Indexed.Adjust
import LinearAssignment.Proofs.Rounds
import LinearAssignment.Proofs.Square

namespace LinearAssignment

variable {n : Nat}

namespace Indexed

/-- What is enough for a list is one for its head and enough for the rest. -/
theorem exists_succ_of_length_cons_le {α : Type} {a : α} {l : List α} {k : Nat}
    (h : (a :: l).length ≤ k) : ∃ k', k = k' + 1 ∧ l.length ≤ k' := by
  cases k with
  | zero => cases h
  | succ k => exact ⟨k, rfl, Nat.le_of_succ_le_succ h⟩

/-! ## Growing -/

/-- A scan has found a column outside the tree, with a slack that is not negative and was given to it by
a tree row. -/
structure Scan.Reaches (n : Nat) (a : Scan) : Prop where
  column : a.nearest < n
  outside : a.tree.cols[a.nearest]? = some false
  slack : a.tree.slack[a.nearest]? = some a.least
  nonneg : 0 ≤ a.least
  reached : a.least < unreached

section
variable {m : Matrix} {s : Progress m.rows} {root : Fin m.rows} {todo : List (Fin m.rows)}
  {t : Search m.rows} {j : Fin m.rows}

theorem reduced_lt_unreached (hm : m.Complete) (hs : m.rows = m.cols) {p : Point m.rows}
    (hp : p.Visited m.costs) (i k : Fin m.rows) : p.potentials.reduced m.costs i k < unreached := by
  have hlo : -2 ^ 63 ≤ m.bottom := Int64.le_toInt _
  have hhi : m.top < 2 ^ 63 := Int64.toInt_lt _
  have := (hp.reduced_mem (hm.costs_mem hs) i k).2
  unfold unreached
  omega

theorem slack_lt_unreached (hm : m.Complete) (hs : m.rows = m.cols)
    (ht : (Point.grown s root todo t).Visited m.costs) (k : Fin m.rows) :
    t.tree.slack.get k < unreached := by
  rcases ht.exists_slack_eq (t := t.tree) rfl k with h | ⟨i, h⟩
  · rw [h]
    decide
  · rw [h]
    exact reduced_lt_unreached hm hs ht i k

/-- What the round of a search that takes the column `j` finds. -/
def Scan.ofRound (t : Search n) (j : Fin n) : Scan := ⟨.of t.tree, t.tree.slack.get j, j⟩

@[simp] theorem Scan.nearest_ofRound (t : Search n) (j : Fin n) : (Scan.ofRound t j).nearest = j := rfl

@[simp] theorem Scan.least_ofRound (t : Search n) (j : Fin n) :
    (Scan.ofRound t j).least = t.tree.slack.get j := rfl

/-- The round of a search is found by the vectors `v` and the slot numbered `u` when scanning them gives
the vectors of its tree. -/
def Finds (m : Matrix) (b : Matching m.rows) (t : Search m.rows) (v : Tree) (u : Nat) : Prop :=
  ∀ j, t.tree.nearest? = some j →
    scan m m.rows (State.of t.potentials b) v u = some (.ofRound t j)

theorem finds_start (hm : m.Complete) (hs : m.rows = m.cols)
    (h : (Point.between s (root :: todo)).Visited m.costs) :
    Finds m (s.matching.seat root) (.start m.costs s.potentials root) (.blank m.rows) m.rows := by
  intro j hj
  exact scan_start hm hs rfl hj (reduced_lt_unreached hm hs h root)

theorem finds_absorb (hm : m.Complete) (hs : m.rows = m.cols) {r : Fin m.rows}
    (h : (Point.grown s root todo (t.absorb m.costs j r)).Visited m.costs)
    (hr : s.matching.rowOf.get j = some r) :
    Finds m (s.matching.seat root) (t.absorb m.costs j r) (.of t.tree) j := by
  intro k hk
  exact scan_absorb hm hs hr hk fun l _ => slack_lt_unreached hm hs h l

theorem adjust_round (ht : (Point.grown s root todo t).Visited m.costs) (hj : t.tree.nearest? = some j) :
    adjust m.rows (State.of t.potentials (s.matching.seat root)) (.ofRound t j) =
      some (State.of (t.raise (t.tree.slack.get j)).potentials (s.matching.seat root),
        .of (t.raise (t.tree.slack.get j)).tree) := by
  obtain ⟨hawaits, hi⟩ := ht.sound
  exact adjust_of hawaits.seated hi (hi.slack_nonneg (SearchTree.nearest?_some hj).1) j

theorem rowOf_of (p : Potentials n) (b : Matching n) (j : Fin n) :
    (State.of p b).rowOf[j.val]? = some ((b.rowOf.get j).map Fin.val) := getElem?_slots_col _ j

/-- The last round over numbered vectors. -/
theorem grow_last (ht : (Point.grown s root todo t).Visited m.costs) (hj : t.tree.nearest? = some j)
    (hfree : s.matching.rowOf.get j = none) {v : Tree} {u : Nat}
    (hv : Finds m (s.matching.seat root) t v u) (rounds : Nat) :
    grow m m.rows (rounds + 1) (State.of t.potentials (s.matching.seat root)) v u t.adjustments =
      some ⟨State.of (t.raise (t.tree.slack.get j)).potentials (s.matching.seat root),
        .of (t.raise (t.tree.slack.get j)).tree, j, (t.raise (t.tree.slack.get j)).adjustments,
        [.ofRound t j]⟩ := by
  have hrow : (s.matching.seat root).rowOf.get j = none := hfree
  rw [grow]
  simp only [hv j hj, adjust_round ht hj, Scan.nearest_ofRound, Scan.least_ofRound, rowOf_of, hrow,
    Option.map_none, Option.bind_eq_bind, Option.bind_some]
  rfl

/-- A round over numbered vectors with more to come. -/
theorem grow_more (ht : (Point.grown s root todo t).Visited m.costs) (hj : t.tree.nearest? = some j)
    {r : Fin m.rows} (hr : s.matching.rowOf.get j = some r) {v : Tree} {u : Nat}
    (hv : Finds m (s.matching.seat root) t v u) (rounds : Nat) :
    grow m m.rows (rounds + 1) (State.of t.potentials (s.matching.seat root)) v u t.adjustments =
      let next := (t.raise (t.tree.slack.get j)).absorb m.costs j r
      (grow m m.rows rounds (State.of next.potentials (s.matching.seat root))
        (.of (t.raise (t.tree.slack.get j)).tree) j next.adjustments).bind
          fun e => some { e with rounds := .ofRound t j :: e.rounds } := by
  have hrow : (s.matching.seat root).rowOf.get j = some r := hr
  rw [grow]
  simp only [hv j hj, adjust_round ht hj, Scan.nearest_ofRound, Scan.least_ofRound, rowOf_of, hrow,
    Option.map_some, Option.bind_eq_bind, Option.bind_some]
  rfl

/-- A round has found a real column outside the tree. -/
theorem reaches_of (hm : m.Complete) (hs : m.rows = m.cols)
    (ht : (Point.grown s root todo t).Visited m.costs) (hj : t.tree.nearest? = some j) :
    (Scan.ofRound t j).Reaches m.rows := by
  have hout := (SearchTree.nearest?_some hj).1
  refine ⟨j.isLt, ?_, getElem?_cells _ j, ht.sound.2.slack_nonneg hout, slack_lt_unreached hm hs ht j⟩
  refine (getElem?_slots_col _ j).trans ?_
  rw [SearchTree.hasSlot, hout]

/-- The rounds of a search over numbered vectors are those of the search. -/
theorem grow_of_rounds (hm : m.Complete) (hs : m.rows = m.cols) {l : List (Fin m.rows)}
    {found : Search m.rows} (h : Search.Rounds m.costs (s.matching.seat root) t l found)
    (ht : (Point.grown s root todo t).Visited m.costs) {rounds : Nat} (hl : l.length ≤ rounds)
    {v : Tree} {u : Nat} (hv : Finds m (s.matching.seat root) t v u) :
    ∃ j scans, l.getLast? = some j ∧ scans.length = l.length ∧
      (∀ a ∈ scans, Scan.Reaches m.rows a) ∧
      grow m m.rows rounds (State.of t.potentials (s.matching.seat root)) v u t.adjustments =
        some ⟨State.of found.potentials (s.matching.seat root), .of found.tree, j, found.adjustments,
          scans⟩ := by
  induction h generalizing rounds v u with
  | @last t j hj hfree =>
    obtain ⟨rounds, rfl, -⟩ := exists_succ_of_length_cons_le hl
    have hrow : s.matching.rowOf.get j = none := hfree
    refine ⟨j, [.ofRound t j], rfl, rfl, ?_, ?_⟩
    · intro a ha
      rw [List.mem_singleton.1 ha]
      exact reaches_of hm hs ht hj
    · exact grow_last ht hj hrow hv rounds
  | @more t found j r l hj hr hrest ih =>
    obtain ⟨rounds, rfl, hle⟩ := exists_succ_of_length_cons_le hl
    have hrow : s.matching.rowOf.get j = some r := hr
    have hnext : (Point.grown s root todo ((t.raise (t.tree.slack.get j)).absorb m.costs j r)).Visited m.costs :=
      (Relation.ReflTransGen.tail ht (.raise hj)).tail (.absorb hrow)
    obtain ⟨k, scans, hk, hlen, hreach, hgrow⟩ :=
      ih hnext hle (finds_absorb hm hs hnext hrow)
    refine ⟨k, .ofRound t j :: scans, ?_, ?_, ?_, ?_⟩
    · rw [List.getLast?_cons, hk, Option.getD_some]
    · rw [List.length_cons, hlen, List.length_cons]
    · rintro a ha
      rcases List.mem_cons.1 ha with rfl | ha
      · exact reaches_of hm hs ht hj
      · exact hreach a ha
    · simp only [grow_more ht hj hrow hv, hgrow, Option.bind_some]

end

/-! ## Moving the rows -/

variable {p : Potentials n} {b : Matching n}

/-- The vector of rows once the row of one slot is another. -/
theorem write_rowOf (b' : Matching n) {u : Slot n} {r : Option (Fin n)}
    (h : ∀ v, b'.rowAt v = if v = u then r else b.rowAt v) :
    write (State.of p b).rowOf (number u) (r.map Fin.val) = some (State.of p b').rowOf := by
  have hupdate : Function.update (fun v => (b.rowAt v).map Fin.val) u (r.map Fin.val) =
      fun v => (b'.rowAt v).map Fin.val := by
    funext v
    rw [h, Function.update_apply]
    split <;> rfl
  refine (write_slots _ u _).trans ?_
  rw [hupdate]
  rfl

theorem write_root (r : Option (Fin n)) :
    write (State.of p b).rowOf n (r.map Fin.val) = some (State.of p { b with rootRow := r }).rowOf := by
  have h := write_rowOf (p := p) (b := b) { b with rootRow := r } (u := none) (r := r)
    fun v => by cases v <;> rfl
  rwa [number_none] at h

/-- Walking along the pointers of a way moves the rows and passes the columns of the way. -/
theorem flip_of {t : SearchTree n} {u : Slot n} {l : List (Fin n)} (h : Way t.via u l) {steps : Nat}
    (hl : l.length ≤ steps) : flip n (Tree.of t).via steps (number u) (State.of p b).rowOf =
      some ((State.of p (b.shift t.via steps u)).rowOf, l.map Fin.val) := by
  induction h generalizing steps b with
  | root =>
    cases steps <;> simp [flip, Matching.shift]
  | @column j l hway _ ih =>
    obtain ⟨steps, rfl, hle⟩ := exists_succ_of_length_cons_le hl
    have hne : number (some j) ≠ n := fun h => by cases number_eq_iff.1 h
    have hvia : (Tree.of t).via[number (some j)]? = some (number (t.via.get j)) := by
      rw [number_some]
      exact getElem?_cells _ j
    have hread : (State.of p b).rowOf[number (t.via.get j)]? =
        some ((b.rowAt (t.via.get j)).map Fin.val) := getElem?_slots _ _
    have hwrite : write (State.of p b).rowOf (number (some j)) ((b.rowAt (t.via.get j)).map Fin.val) =
        some (State.of p { b with rowOf := b.rowOf.set j (b.rowAt (t.via.get j)) j.isLt }).rowOf := by
      refine write_rowOf _ fun v => ?_
      cases v <;> simp [Matching.rowAt]
    rw [flip, if_neg hne]
    simp only [hvia, hread, hwrite, ih hle, Option.bind_eq_bind, Option.bind_some]
    rw [number_some]
    rfl

/-- A way needs no more steps than it has columns. -/
theorem shift_eq {via : Vector (Slot n) n} {u : Slot n} {l : List (Fin n)} (h : Way via u l)
    {steps : Nat} (hl : l.length ≤ steps) : b.shift via steps u = b.shift via l.length u := by
  induction h generalizing steps b with
  | root => cases steps <;> rfl
  | column _ _ ih =>
    obtain ⟨steps, rfl, hle⟩ := exists_succ_of_length_cons_le hl
    exact ih hle

/-- Entering the rows of the columns brings the columns of the rows up to date. -/
theorem foldlM_enter : (List.range n).foldlM (enter (State.of p b).rowOf) (State.of p b).colOf =
    some (State.of p b.refresh).colOf := by
  have hstep : ∀ (v : Vector (Option (Fin n)) n) (j : Fin n),
      enter (State.of p b).rowOf (cells fun i => (v.get i).map Fin.val) j =
        some (cells fun i => ((b.enter v j).get i).map Fin.val) := by
    intro v j
    have hread : (State.of p b).rowOf[j.val]? = some ((b.rowOf.get j).map Fin.val) := rowOf_of p b j
    unfold enter Matching.enter
    rw [hread]
    cases b.rowOf.get j with
    | none => rfl
    | some i =>
      have hwrite := write_cells_map (Option.map Fin.val) (fun k => (v.get k)) i (some j)
      refine hwrite.trans ?_
      simp only [Function.update_apply, get_set]
  rw [range_eq_map]
  exact foldlM_of_step hstep _ b.colOf

theorem settle_of {t : SearchTree n} {j : Fin n} {l : List (Fin n)} (h : Way t.via (some j) l)
    {steps : Nat} (hl : l.length ≤ steps) : settle n steps (Tree.of t).via (State.of p b) j =
      some (State.of p (b.augment t.via j), l.map Fin.val) := by
  have hflip := flip_of (p := p) (b := b) h hl
  have hshift := (shift_eq (b := b) h hl).trans (shift_eq h h.length_le).symm
  rw [hshift, number_some] at hflip
  have hempty : write (State.of p (b.shift t.via n (some j))).rowOf n none = _ := write_root none
  -- the walk has not touched the columns of the rows
  have hcols : (State.of p b).colOf =
      (State.of p { b.shift t.via n (some j) with rootRow := none }).colOf := by
    unfold State.of
    rw [Matching.shift_colOf]
  unfold settle
  simp only [hflip, hempty, hcols, foldlM_enter, Option.bind_eq_bind, Option.bind_some]
  rfl

/-! ## A whole search -/

/-- A search has taken at most one round more than there are `k` matched columns, each of which has found
a real column outside the tree, and has come back to the root in as many steps at most, past no column
twice. -/
structure Run.Within (n k : Nat) (r : Run) : Prop where
  rounds_le : r.rounds.length ≤ k + 1
  reaches : ∀ a ∈ r.rounds, a.Reaches n
  way_le : r.way.length ≤ k + 1
  way_nodup : r.way.Nodup

section
variable {m : Matrix} {s : Progress m.rows} {root : Fin m.rows} {todo : List (Fin m.rows)}

/-- Growing over numbered vectors ends in time, where the search does, with a short way to the root. -/
theorem exists_end (hm : m.Complete) (hs : m.rows = m.cols)
    (h : (Point.between s (root :: todo)).Visited m.costs) {rounds : Nat}
    (hle : s.matching.matchedCols.card + 1 ≤ rounds) :
    ∃ j found scans way,
      (Search.start m.costs s.potentials root).grow m.costs (s.matching.seat root) = some (j, found) ∧
      grow m m.rows rounds (State.of s.potentials (s.matching.seat root)) (.blank m.rows) m.rows 0 =
        some ⟨State.of found.potentials (s.matching.seat root), .of found.tree, j, found.adjustments,
          scans⟩ ∧
      scans.length ≤ s.matching.matchedCols.card + 1 ∧ (∀ a ∈ scans, Scan.Reaches m.rows a) ∧
      Way found.tree.via (some j) way ∧ way.length ≤ s.matching.matchedCols.card + 1 := by
  have hawaits : s.Awaits m.costs (root :: todo) := h.sound
  have hgrown : (Point.grown s root todo (.start m.costs s.potentials root)).Visited m.costs :=
    Relation.ReflTransGen.tail h .start
  obtain ⟨l, found, hrounds⟩ := hgrown.sound.2.exists_rounds hawaits.seated
  obtain ⟨j, scans, hj, hlen, hreach, hgrow⟩ :=
    grow_of_rounds hm hs hrounds hgrown (hrounds.length_le.trans hle) (finds_start hm hs h)
  -- the rounds end at the column that the search finds
  obtain ⟨k, hk, hfound⟩ := hrounds.grow
  cases Option.some.inj (hj.symm.trans hk)
  obtain ⟨j', found', hfound', hf⟩ := hawaits.sound.exists_found hawaits.root_free
  obtain ⟨rfl, rfl⟩ := Prod.mk.inj (Option.some.inj (hfound.symm.trans hfound'))
  obtain ⟨way, hway, hlength⟩ := hf.exists_short_way
  exact ⟨j, found, scans, way, hfound, hgrow, hlen.trans_le hrounds.length_le, hreach, hway, hlength⟩

/-- Every search of the run succeeds over numbered vectors, and leaves those of the next state behind. -/
theorem exists_run_of_le (hm : m.Complete) (hs : m.rows = m.cols)
    (h : (Point.between s (root :: todo)).Visited m.costs) {fuel : Nat}
    (hfuel : s.matching.matchedCols.card + 1 ≤ fuel) :
    ∃ r, augment m m.rows fuel (State.of s.potentials s.matching) root = some r ∧
      r.state = State.of (s.augment m.costs root).potentials (s.augment m.costs root).matching ∧
      s.adjustments + r.adjustments = (s.augment m.costs root).adjustments ∧
      r.Within m.rows s.matching.matchedCols.card := by
  obtain ⟨j, found, scans, way, hfound, hgrow, hlen, hreach, hway, hle⟩ := exists_end hm hs h hfuel
  have hseat : write (State.of s.potentials s.matching).rowOf m.rows (some root.val) =
      some (State.of s.potentials (s.matching.seat root)).rowOf := write_root (some root)
  have hsettle : settle m.rows fuel (Tree.of found.tree).via
      (State.of found.potentials (s.matching.seat root)) j = _ := settle_of hway (hle.trans hfuel)
  refine ⟨⟨State.of found.potentials ((s.matching.seat root).augment found.tree.via j),
    found.adjustments, scans, way.map Fin.val⟩, ?_, ?_, ?_, ?_⟩
  · have hgrow' : grow m m.rows fuel
        { State.of s.potentials s.matching with
          rowOf := (State.of s.potentials (s.matching.seat root)).rowOf } (.blank m.rows) m.rows 0 = _ :=
      hgrow
    unfold augment
    simp only [hseat, hgrow', hsettle, Option.bind_eq_bind, Option.bind_some]
    rfl
  · rw [Progress.augment_eq_flip hfound]
    rfl
  · rw [Progress.augment_eq_flip hfound]
    rfl
  · refine ⟨hlen, hreach, ?_, hway.nodup.map Fin.val_injective⟩
    rw [List.length_map]
    exact hle

/-- A search needs one round more than there are matched columns, and as many steps back. -/
theorem exists_run (hw : m.WellFormed) (hs : m.rows = m.cols)
    (h : (Point.between s (root :: todo)).Visited m.costs) :
    ∃ r, augment m m.rows (s.matching.matchedCols.card + 1) (State.of s.potentials s.matching) root =
        some r ∧
      r.state = State.of (s.augment m.costs root).potentials (s.augment m.costs root).matching ∧
      s.adjustments + r.adjustments = (s.augment m.costs root).adjustments ∧
      r.Within m.rows s.matching.matchedCols.card := exists_run_of_le hw.complete hs h (Nat.le_refl _)

end

end Indexed

/-! ## Square matrices -/

/-- The square matrix `m` is solved by a run each of whose searches succeeds over numbered vectors, with
one round more than there are matched columns and as many steps back, and leads to the same state. -/
structure Matrix.SearchedInBounds (m : Matrix) : Prop where
  solved : m.solveSquare.run.value = .ok (.ofOptimum m (optimum m.costs))
  ends : ∃ last : Progress m.rows, (Point.between last []).Visited m.costs ∧
    last.potentials = (optimum m.costs).potentials ∧ last.matching = (optimum m.costs).matching
  searches : ∀ (s : Progress m.rows) (root : Fin m.rows) (todo : List (Fin m.rows)),
    (Point.between s (root :: todo)).Visited m.costs →
      ∃ r, Indexed.augment m m.rows (s.matching.matchedCols.card + 1)
          (Indexed.State.of s.potentials s.matching) root = some r ∧
        r.state = Indexed.State.of (s.augment m.costs root).potentials (s.augment m.costs root).matching ∧
        s.adjustments + r.adjustments = (s.augment m.costs root).adjustments ∧
        r.Within m.rows s.matching.matchedCols.card
  /-- The next point between searches is the one that such a search leads to. -/
  steps : ∀ (s : Progress m.rows) (root : Fin m.rows) (todo : List (Fin m.rows)),
    (Point.between s (root :: todo)).Visited m.costs →
      Steps m.costs (.between s (root :: todo)) (.between (s.augment m.costs root) todo)

/-- No search of a square matrix runs on, gets stuck, or reaches outside its vectors. -/
theorem Matrix.searchedInBounds_of_square (m : Matrix) (hw : m.WellFormed) (hs : m.rows = m.cols) :
    m.SearchedInBounds :=
  ⟨by rw [solveSquare_run hs hw.complete], exists_visited_optimum m.costs,
    fun _ _ _ h => Indexed.exists_run hw hs h, fun _ _ _ h => augment_steps h.sound⟩

/-- On the multiplication table there are such searches. -/
theorem Matrix.searchedInBounds_timesTable : timesTable.WellFormed ∧ timesTable.rows = timesTable.cols ∧
    (∃ s root todo, (Point.between s (root :: todo)).Visited timesTable.costs) ∧
      timesTable.SearchedInBounds :=
  ⟨by decide, rfl, exists_visited_timesTable, searchedInBounds_of_square timesTable (by decide) rfl⟩

end LinearAssignment
