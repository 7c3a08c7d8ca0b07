/-
Summaries. Nested rows always get one: rows that have an assignment get the summary of the solution of
their matrix, and all others get the unsuccessful one. The pairs of the solution ascend by row, so
counting from 1 turns them into the entries of a row map one by one.
-/
import LinearAssignment.Proofs.Rows
import LinearAssignment.Proofs.Views
import LinearAssignment.Summary

namespace LinearAssignment

variable {rows : List (List Cell)} {o : Objective}

/-! ## Errors as failed solutions -/

namespace Summary

end Summary

namespace Summary

/-! ## The entries of the map -/

section
variable {m : Matrix} {s : Solution} {p : Padded} {σ : Equiv.Perm (Fin p.matrix.rows)}

end

/-! ## Answers -/

end Summary

end LinearAssignment
