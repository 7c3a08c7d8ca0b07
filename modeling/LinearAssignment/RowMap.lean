/-
Finite maps from row numbers to column numbers, as lists of entries in ascending order of their
rows. A row has one entry; inserting a row again replaces it.
-/

namespace LinearAssignment

structure RowMap where
  entries : List (Nat × Nat)
  ascending : entries.Pairwise fun a b => a.1 < b.1
deriving DecidableEq, Repr

namespace RowMap

def empty : RowMap := ⟨[], .nil⟩

instance : Inhabited RowMap := ⟨empty⟩

/-- Puts `(row, col)` in its place among ascending entries. -/
def insertEntry (row col : Nat) : List (Nat × Nat) → List (Nat × Nat)
  | [] => [(row, col)]
  | e :: es =>
    if row < e.1 then (row, col) :: e :: es
    else if row = e.1 then (row, col) :: es
    else e :: insertEntry row col es

theorem mem_insertEntry {row col : Nat} {a : Nat × Nat} {es : List (Nat × Nat)}
    (h : a ∈ insertEntry row col es) : a = (row, col) ∨ a ∈ es := by
  induction es with
  | nil => exact .inl (List.mem_singleton.1 h)
  | cons e es ih =>
    rw [insertEntry] at h
    split at h
    · rcases List.mem_cons.1 h with rfl | h
      · exact .inl rfl
      · exact .inr h
    · split at h
      · rcases List.mem_cons.1 h with rfl | h
        · exact .inl rfl
        · exact .inr (List.mem_cons_of_mem _ h)
      · rcases List.mem_cons.1 h with rfl | h
        · exact .inr List.mem_cons_self
        · exact (ih h).imp_right (List.mem_cons_of_mem _)

theorem ascending_insertEntry (row col : Nat) {es : List (Nat × Nat)}
    (h : es.Pairwise fun a b => a.1 < b.1) :
    (insertEntry row col es).Pairwise fun a b => a.1 < b.1 := by
  induction es with
  | nil => exact List.pairwise_singleton _ _
  | cons e es ih =>
    obtain ⟨he, hes⟩ := List.pairwise_cons.1 h
    rw [insertEntry]
    split
    · next hlt =>
      refine List.pairwise_cons.2 ⟨fun a ha => ?_, h⟩
      rcases List.mem_cons.1 ha with rfl | ha
      · exact hlt
      · exact Nat.lt_trans hlt (he a ha)
    · split
      · next heq => exact List.pairwise_cons.2 ⟨fun a ha => heq ▸ he a ha, hes⟩
      · next hlt hne =>
        refine List.pairwise_cons.2 ⟨fun a ha => ?_, ih hes⟩
        rcases mem_insertEntry ha with rfl | ha
        · exact Nat.lt_of_le_of_ne (Nat.not_lt.1 hlt) (Ne.symm hne)
        · exact he a ha

def insert (m : RowMap) (row col : Nat) : RowMap :=
  ⟨insertEntry row col m.entries, ascending_insertEntry row col m.ascending⟩

/-- The map of the given pairs; of pairs with the same row the last one counts. -/
def ofList (pairs : List (Nat × Nat)) : RowMap := pairs.foldl (fun m p => m.insert p.1 p.2) empty

end RowMap

end LinearAssignment
