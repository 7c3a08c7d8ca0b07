/-
Tables: vectors read and written at numbers of `Fin`, which are in range as they come. What a read
gives after each way to make a table.
-/

namespace LinearAssignment

variable {α : Type} {n : Nat}

@[simp] theorem get_set (v : Vector α n) (i k : Fin n) (x : α) :
    (v.set i x i.isLt).get k = if k = i then x else v.get k := by
  show (v.set i x i.isLt)[k] = if k = i then x else v[k]
  rw [Fin.getElem_fin, Vector.getElem_set]
  simp only [Fin.ext_iff, eq_comm, Fin.getElem_fin]

@[simp] theorem get_ofFn (f : Fin n → α) (i : Fin n) : (Vector.ofFn f).get i = f i := by
  show (Vector.ofFn f)[i] = f i
  simp

@[simp] theorem get_replicate (x : α) (i : Fin n) : (Vector.replicate n x).get i = x := by
  show (Vector.replicate n x)[i] = x
  simp

@[simp] theorem ofFn_get (v : Vector α n) : (Vector.ofFn fun i => v.get i) = v :=
  Vector.ext fun i hi => by simp [Vector.get]

end LinearAssignment
