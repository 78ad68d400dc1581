import TreeEditor.Arena.Json
import TreeEditor.Edit.Json
import TreeEditor.Main
import TreeEditor.Node.Walk
import TreeEditor.Proofs.Congruence
import TreeEditor.Proofs.Insertion
import TreeEditor.Proofs.Reflection
import TreeEditor.Proofs.StatePaths
import TreeEditor.Proofs.Withdrawal
import TreeEditor.Proofs.Application
import TreeEditor.Proofs.Audit
import TreeEditor.Proofs.Consistency
import TreeEditor.Proofs.Breakdowns
import TreeEditor.Proofs.Handles
import TreeEditor.Proofs.Rejection
import TreeEditor.Proofs.Timeline
import TreeEditor.Proofs.Addresses
import TreeEditor.Proofs.Batches
import TreeEditor.Proofs.Conformity
import TreeEditor.Proofs.Journal
import TreeEditor.Proofs.Replaying
import TreeEditor.Proofs.AttachDetach
import TreeEditor.Proofs.Founding
import TreeEditor.Proofs.Refreshing
import TreeEditor.Proofs.Toggling
import TreeEditor.Proofs.DeadEnds
import TreeEditor.Proofs.Printing
import TreeEditor.Proofs.ArenaHistory
import TreeEditor.Proofs.Agreement
import TreeEditor.Proofs.Retention
import TreeEditor.Proofs.Views
import TreeEditor.Proofs.AuditGuarantees
import TreeEditor.Proofs.Rekeying
import TreeEditor.Proofs.Writing
import TreeEditor.Proofs.Involution
import TreeEditor.Proofs.Reordering
import TreeEditor.Proofs.Census
