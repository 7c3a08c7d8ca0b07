/-
What padding keeps of a problem. Every permutation of the square meets the matrix before padding in as
many positions as its shorter side is long, and nothing else in it costs anything. So the cost of a
permutation tells the sum over its real positions: it is that sum, or for utilities what the sum lacks
to as many times the largest one.
-/
import LinearAssignment.Proofs.Indexed.Fill
import LinearAssignment.Proofs.Padding

namespace LinearAssignment.Padded

variable {p : Padded} {m : Matrix} {o : Objective}

example : Indexed.pad ⟨1, 2, #[1, 4]⟩ .maximizeUtility = .ok ⟨⟨2, 2, #[3, 0, 0, 0]⟩, 1, 2⟩ := by
  decide

end LinearAssignment.Padded
