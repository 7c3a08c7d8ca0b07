/-
Lists of pairs read as maps. In a list whose items have distinct keys, what is found for a key is the item
that has it; among pairs with distinct first parts, then, what the list pairs with it. Inserting a row
above all others puts it at the end, so pairs in ascending order of their rows are the entries of the row
map made from them: none is lost, none is merged.
-/
import LinearAssignment.RowMap
import Mathlib.Data.List.Nodup

namespace LinearAssignment

theorem find?_key_eq_some_iff {α κ : Type} [DecidableEq κ] {key : α → κ} {l : List α} (h : (l.map key).Nodup)
    {k : κ} {a : α} : (l.find? fun b => key b = k) = some a ↔ a ∈ l ∧ key a = k := by
  constructor
  · intro ha
    exact ⟨List.mem_of_find?_eq_some ha, by simpa using List.find?_some ha⟩
  · rintro ⟨hm, rfl⟩
    cases hf : l.find? fun b => key b = key a with
    | none => exact absurd (List.find?_eq_none.1 hf _ hm) (by simp)
    | some b =>
      -- nothing else has the key
      have hb : key b = key a := by simpa using List.find?_some hf
      rw [List.inj_on_of_nodup_map h (List.mem_of_find?_eq_some hf) hm hb]

theorem find?_fst_eq_some_iff {l : List (Nat × Nat)} (h : (l.map Prod.fst).Nodup) {a b : Nat} :
    (l.find? fun q => q.1 = a).map (·.2) = some b ↔ (a, b) ∈ l := by
  rw [Option.map_eq_some_iff]
  constructor
  · rintro ⟨q, hq, rfl⟩
    obtain ⟨hm, rfl⟩ := (find?_key_eq_some_iff h).1 hq
    exact hm
  · intro hm
    exact ⟨(a, b), (find?_key_eq_some_iff h).2 ⟨hm, rfl⟩, rfl⟩

namespace RowMap

theorem insertEntry_of_above {row : Nat} {es : List (Nat × Nat)} (h : ∀ e ∈ es, e.1 < row)
    (col : Nat) : insertEntry row col es = es ++ [(row, col)] := by
  induction es with
  | nil => rfl
  | cons e es ih =>
    have he := h e List.mem_cons_self
    rw [insertEntry, if_neg (by omega), if_neg (by omega),
      ih fun a ha => h a (List.mem_cons_of_mem _ ha), List.cons_append]

theorem entries_foldl_insert {pairs : List (Nat × Nat)} {m : RowMap}
    (h : (m.entries ++ pairs).Pairwise fun a b => a.1 < b.1) :
    (pairs.foldl (fun m p => m.insert p.1 p.2) m).entries = m.entries ++ pairs := by
  induction pairs generalizing m with
  | nil => exact (List.append_nil _).symm
  | cons p pairs ih =>
    have hp : (m.insert p.1 p.2).entries = m.entries ++ [p] :=
      insertEntry_of_above (fun e he => (List.pairwise_append.1 h).2.2 e he p List.mem_cons_self) p.2
    rw [List.foldl_cons, ih, hp, List.append_assoc, List.singleton_append]
    rw [hp, List.append_assoc, List.singleton_append]
    exact h

theorem entries_ofList {pairs : List (Nat × Nat)} (h : pairs.Pairwise fun a b => a.1 < b.1) :
    (ofList pairs).entries = pairs :=
  entries_foldl_insert (m := empty) h

theorem mem_entries_foldl_insert {pairs : List (Nat × Nat)} {m : RowMap} {e : Nat × Nat}
    (h : e ∈ (pairs.foldl (fun m p => m.insert p.1 p.2) m).entries) : e ∈ m.entries ∨ e ∈ pairs := by
  induction pairs generalizing m with
  | nil => exact .inl h
  | cons p pairs ih =>
    rcases ih h with h | h
    · rcases mem_insertEntry h with rfl | h
      · exact .inr List.mem_cons_self
      · exact .inl h
    · exact .inr (List.mem_cons_of_mem _ h)

/-- The entries of the map of a list of pairs are among the pairs. -/
theorem mem_of_mem_ofList {pairs : List (Nat × Nat)} {e : Nat × Nat} (h : e ∈ (ofList pairs).entries) :
    e ∈ pairs :=
  (mem_entries_foldl_insert h).resolve_left List.not_mem_nil

/-- A map is that of its entries. -/
theorem ofList_entries (m : RowMap) : ofList m.entries = m := by
  have h : (ofList m.entries).entries = m.entries := entries_ofList m.ascending
  generalize ofList m.entries = m' at h
  cases m
  cases m'
  cases h
  rfl

end RowMap

end LinearAssignment
