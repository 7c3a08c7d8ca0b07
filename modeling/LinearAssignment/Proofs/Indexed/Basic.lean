/-
Searches over vectors that are addressed by numbers. The columns of a square of side `n` are numbered
from 0, and the root is number `n`: the vectors of column potentials, of rows by column, and of tree
columns have one more place for it, the slacks and the pointers have not. Every access is checked, so
that a search over such vectors can fail: past the end of a vector, at a tree column without a row, or
when it runs out of the rounds or steps it is given.

The vectors of functions on columns and slots, and what reading and writing does to them.
-/
import LinearAssignment.Matching
import LinearAssignment.Matrix.Basic
import Mathlib.Algebra.Ring.Int.Defs
import Mathlib.Data.List.FinRange
import Mathlib.Logic.Equiv.Fin.Basic

namespace LinearAssignment.Indexed

variable {α : Type}

/-- The vector with `x` at position `i`, unless that is past its end. -/
def write (a : Array α) (i : Nat) (x : α) : Option (Array α) :=
  if h : i < a.size then some (a.set i x) else none

/-! ## The search -/

/-- The vectors that outlast a search. -/
structure State where
  /-- The potentials of the rows. -/
  row : Array Int
  /-- The potentials of the columns, then that of the root. -/
  col : Array Int
  /-- The rows of the columns, then the one in the root. -/
  rowOf : Array (Option Nat)
  /-- The columns of the rows. -/
  colOf : Array (Option Nat)

/-- The vectors of one search. -/
structure Tree where
  slack : Array Int
  /-- The numbers of the slots that the columns are reached from. -/
  via : Array Nat
  /-- Whether a column, or at last the root, is in the tree. -/
  cols : Array Bool

/-- A slack that no reduced cost attains: the greatest signed integer of 128 bits. -/
def unreached : Int := 2 ^ 127 - 1

/-- The vectors that a search begins with: no slot is in the tree and no column reached. -/
def Tree.blank (n : Nat) : Tree := ⟨.replicate n unreached, .replicate n n, .replicate (n + 1) false⟩

/-- The vectors in the middle of looking through the columns, with the least slack so far and the
column that has it. -/
structure Scan where
  tree : Tree
  least : Int
  nearest : Nat

def reduced (m : Matrix) (s : State) (i j : Nat) : Option Int := do
  return (← (m.cell i j).toOption).toInt - (← s.row[i]?) - (← s.col[j]?)

/-- Reaches column `j` from slot `u` with slack `d`, if that is less than before. -/
def relax (u : Nat) (d : Int) (j : Nat) (t : Tree) : Option Tree := do
  if d < (← t.slack[j]?) then
    return { t with slack := ← write t.slack j d, via := ← write t.via j u }
  else
    return t

/-- Looks at column `j` from the tree row `i`, which is in the slot `u`. -/
def look (m : Matrix) (s : State) (i u : Nat) (a : Scan) (j : Nat) : Option Scan := do
  if ← a.tree.cols[j]? then
    return a
  else
    let t ← relax u (← reduced m s i j) j a.tree
    let d ← t.slack[j]?
    if d < a.least then return ⟨t, d, j⟩ else return { a with tree := t }

/-- Takes slot `u` into the tree and looks at all columns from its row. -/
def scan (m : Matrix) (n : Nat) (s : State) (t : Tree) (u : Nat) : Option Scan := do
  let cols ← write t.cols u true
  let i ← ← s.rowOf[u]?
  (List.range n).foldlM (look m s i u) ⟨{ t with cols := cols }, unreached, n⟩

/-- Shifts the potentials of slot `u` and its row by `d` if it is in the tree, otherwise its slack. -/
def shift (d : Int) (p : State × Tree) (u : Nat) : Option (State × Tree) := do
  if ← p.2.cols[u]? then
    let row ← match ← p.1.rowOf[u]? with
      | some i => do write p.1.row i ((← p.1.row[i]?) + d)
      | none => some p.1.row
    let col ← write p.1.col u ((← p.1.col[u]?) - d)
    return ({ p.1 with row := row, col := col }, p.2)
  else
    return (p.1, { p.2 with slack := ← write p.2.slack u ((← p.2.slack[u]?) - d) })

/-- Shifts all slots by the least slack, if that is positive. -/
def adjust (n : Nat) (s : State) (a : Scan) : Option (State × Tree) :=
  if 0 < a.least then (List.range (n + 1)).foldlM (shift a.least) (s, a.tree)
  else some (s, a.tree)

/-- Where a search has ended. -/
structure End where
  state : State
  tree : Tree
  /-- The column without a row. -/
  found : Nat
  adjustments : Nat
  /-- What the rounds have found, in their order. -/
  rounds : List Scan

/-- Grows the tree from slot `u`, in the given number of rounds at most. -/
def grow (m : Matrix) (n : Nat) : Nat → State → Tree → Nat → Nat → Option End
  | 0, _, _, _, _ => none
  | rounds + 1, s, t, u, adjustments => do
    let a ← scan m n s t u
    let (s, t) ← adjust n s a
    let adjustments := if 0 < a.least then adjustments + 1 else adjustments
    match ← s.rowOf[a.nearest]? with
    | none => return ⟨s, t, a.nearest, adjustments, [a]⟩
    | some _ => do
      let e ← grow m n rounds s t a.nearest adjustments
      return { e with rounds := a :: e.rounds }

/-- Moves rows along the pointers from slot `u` to the root, in the given number of steps at most. Also
gives the columns on the way. -/
def flip (n : Nat) (via : Array Nat) :
    Nat → Nat → Array (Option Nat) → Option (Array (Option Nat) × List Nat)
  | 0, u, rowOf => if u = n then some (rowOf, []) else none
  | steps + 1, u, rowOf =>
    if u = n then some (rowOf, [])
    else do
      let v ← via[u]?
      let (rowOf, way) ← flip n via steps v (← write rowOf u (← rowOf[v]?))
      return (rowOf, u :: way)

/-- Enters the row of column `j` into the columns of the rows. -/
def enter (rowOf colOf : Array (Option Nat)) (j : Nat) : Option (Array (Option Nat)) := do
  match ← rowOf[j]? with
  | some i => write colOf i (some j)
  | none => return colOf

/-- Moves the rows on the way from column `j` to the root, in the given number of steps at most, which
leaves the root empty. Also gives the columns on the way. -/
def settle (n steps : Nat) (via : Array Nat) (s : State) (j : Nat) : Option (State × List Nat) := do
  let (rowOf, way) ← flip n via steps j s.rowOf
  let rowOf ← write rowOf n none
  let colOf ← (List.range n).foldlM (enter rowOf) s.colOf
  return ({ s with rowOf := rowOf, colOf := colOf }, way)

/-- A search that has matched its row. -/
structure Run where
  state : State
  adjustments : Nat
  /-- What the rounds have found, in their order. -/
  rounds : List Scan
  /-- The columns on the way from the one found to the root. -/
  way : List Nat

/-- Matches the row `root`, with at most `fuel` rounds and as many steps along the pointers. -/
def augment (m : Matrix) (n fuel : Nat) (s : State) (root : Nat) : Option Run := do
  let rowOf ← write s.rowOf n (some root)
  let e ← grow m n fuel { s with rowOf := rowOf } (.blank n) n 0
  let (s, way) ← settle n fuel e.tree.via e.state e.found
  return ⟨s, e.adjustments, e.rounds, way⟩

/-! ## Vectors of functions -/

variable {n : Nat}

/-- The number of a slot. -/
def number (u : Slot n) : Nat := (finSuccEquivLast.symm u).val

@[simp] theorem number_none : number (none : Slot n) = n := by simp [number]

@[simp] theorem number_some (j : Fin n) : number (some j) = j.val := by simp [number]

theorem number_eq_iff {u : Slot n} : number u = n ↔ u = none := by
  cases u with
  | none => simp
  | some j => simp [Nat.ne_of_lt j.isLt]

/-- The vector of a function on rows or columns. -/
def cells (f : Fin n → α) : Array α := Array.ofFn f

/-- The vector of a function on slots. -/
def slots (f : Slot n → α) : Array α := cells fun k => f (finSuccEquivLast k)

theorem replicate_eq_cells (x : α) : Array.replicate n x = cells fun _ : Fin n => x :=
  Array.ext (by simp [cells]) fun k hk hk' => by simp [cells]

theorem replicate_eq_slots (x : α) : Array.replicate (n + 1) x = slots fun _ : Slot n => x :=
  replicate_eq_cells x

@[simp] theorem getElem?_cells (f : Fin n → α) (j : Fin n) : (cells f)[j.val]? = some (f j) := by
  simp [cells]

@[simp] theorem write_cells (f : Fin n → α) (j : Fin n) (x : α) :
    write (cells f) j.val x = some (cells (Function.update f j x)) := by
  have hj : j.val < (cells f).size := by simp [cells]
  unfold write
  rw [dif_pos hj, Option.some.injEq]
  refine Array.ext (by simp [cells]) fun k hk hk' => ?_
  simp only [cells, Array.getElem_set, Array.getElem_ofFn, Function.update_apply, Fin.ext_iff, eq_comm]

/-- Writing the image of a value into the vector of images. -/
theorem write_cells_map {β : Type} (g : β → α) (f : Fin n → β) (j : Fin n) (x : β) :
    write (cells fun k => g (f k)) j.val (g x) = some (cells fun k => g (Function.update f j x k)) := by
  rw [write_cells, Option.some.injEq]
  congr 1
  funext k
  exact (Function.apply_update (fun _ => g) f j x k).symm

theorem getElem?_slots (f : Slot n → α) (u : Slot n) : (slots f)[number u]? = some (f u) := by
  unfold slots number
  rw [getElem?_cells, Equiv.apply_symm_apply]

/-- A column is a slot with the same number. -/
theorem getElem?_slots_col (f : Slot n → α) (j : Fin n) : (slots f)[j.val]? = some (f (some j)) := by
  rw [← getElem?_slots, number_some]

theorem write_slots (f : Slot n → α) (u : Slot n) (x : α) :
    write (slots f) (number u) x = some (slots (Function.update f u x)) := by
  unfold slots number
  rw [write_cells, Option.some.injEq]
  congr 1
  funext k
  simp only [Function.update_apply, Equiv.eq_symm_apply]

/-- A fold of steps that do to the form of a value what `g` does to the value. -/
theorem foldlM_of_step {σ τ β : Type} {form : σ → τ} {step : τ → β → Option τ} {g : σ → α → σ}
    {h : α → β} (hs : ∀ x a, step (form x) (h a) = some (form (g x a))) :
    ∀ (l : List α) (x : σ), (l.map h).foldlM step (form x) = some (form (l.foldl g x))
  | [], x => rfl
  | a :: l, x => by
    rw [List.map_cons, List.foldlM_cons, hs, List.foldl_cons]
    exact foldlM_of_step hs l (g x a)

theorem range_eq_map : List.range n = (List.finRange n).map Fin.val := by
  simp

/-- All slots in the order of their numbers. -/
def allSlots (n : Nat) : List (Slot n) := (List.finRange (n + 1)).map finSuccEquivLast

theorem range_succ_eq_map : List.range (n + 1) = (allSlots n).map number := by
  unfold allSlots number
  rw [List.map_map]
  simp only [Function.comp_def, Equiv.symm_apply_apply]
  exact range_eq_map

theorem mem_allSlots (u : Slot n) : u ∈ allSlots n :=
  List.mem_map.2 ⟨finSuccEquivLast.symm u, List.mem_finRange _, Equiv.apply_symm_apply _ u⟩

theorem nodup_allSlots : (allSlots n).Nodup := (List.nodup_finRange _).map finSuccEquivLast.injective

end LinearAssignment.Indexed
