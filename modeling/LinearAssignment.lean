import LinearAssignment.Json.Records
import LinearAssignment.Proofs.Solve
import LinearAssignment.Proofs.Run
import LinearAssignment.Proofs.Balance
import LinearAssignment.Proofs.Bounds
import LinearAssignment.Proofs.Exactness
import LinearAssignment.Proofs.Outcome
import LinearAssignment.Proofs.Views
import LinearAssignment.Proofs.Rows
import LinearAssignment.Proofs.Summary
import LinearAssignment.Proofs.Covering
import LinearAssignment.Proofs.Fixpoint
import LinearAssignment.Proofs.Rounds
import LinearAssignment.Proofs.Indexed.Augment
import LinearAssignment.Proofs.Json.RoundTrip
import LinearAssignment.Proofs.Rescaling
import LinearAssignment.Proofs.Adjustments
import LinearAssignment.Proofs.Indexed.Fill
import LinearAssignment.Proofs.Preservation
import LinearAssignment.Proofs.Regret
import LinearAssignment.Proofs.Indexed.Tally
import LinearAssignment.Proofs.Nesting
import LinearAssignment.Proofs.Tally
import LinearAssignment.Proofs.Indexed.Reduce
import LinearAssignment.Proofs.Indexed.Rewrite
import LinearAssignment.Proofs.Indexed.Solve
import LinearAssignment.Proofs.Storage
import LinearAssignment.Proofs.Access
import LinearAssignment.Proofs.Greedy
import LinearAssignment.Proofs.Text
