import CallBinding.Codec.Graph
import CallBinding.Codec.Session
import CallBinding.Controller.Agenda
import CallBinding.Controller.Basic
import CallBinding.Controller.Binding
import CallBinding.Controller.Handle
import CallBinding.Controller.Spawned
import CallBinding.Editor.Action
import CallBinding.Editor.Basic
import CallBinding.Editor.Command
import CallBinding.Family.Plan
import CallBinding.Family.Rule
import CallBinding.Graph.Block
import CallBinding.Graph.Event
import CallBinding.Graph.Parameters
import CallBinding.Host.Basic
import CallBinding.Host.Query
import CallBinding.Json.Token
import CallBinding.Json.Value
import CallBinding.Name
import CallBinding.OrderedMap
import CallBinding.Reconcile.Apply
import CallBinding.Reconcile.Sweep
import CallBinding.Reconcile.Sync
import CallBinding.Settings.Basic
import CallBinding.Settings.Document
import CallBinding.Settings.Variables
import CallBinding.Text.Blank
import CallBinding.Text.Decimal
import CallBinding.Text.Hex
import CallBinding.Text.Utf16
import CallBinding.Text.Uuid
import CallBinding.Workbench.Basic
import CallBinding.Workbench.Step
import CallBinding.Proofs.Graph.Trail
import CallBinding.Proofs.Editor.Commands
import CallBinding.Proofs.Host.Issues
import CallBinding.Proofs.Reconcile.Sync
import CallBinding.Proofs.Family.Survivor
import CallBinding.Proofs.Family.Plan
import CallBinding.Proofs.Reconcile.Apply
import CallBinding.Proofs.Reconcile.Sweep
import CallBinding.Proofs.Reconcile.Idempotence
import CallBinding.Proofs.Reconcile.Reports
import CallBinding.Proofs.Reconcile.Stale
import CallBinding.Proofs.Editor.Progress
import CallBinding.Proofs.Editor.Births
import CallBinding.Proofs.Graph.Discipline
import CallBinding.Proofs.Reconcile.Discipline
import CallBinding.Proofs.Controller.Debounce
import CallBinding.Proofs.Controller.Binding
import CallBinding.Proofs.Controller.Turns
import CallBinding.Proofs.Controller.Becomes
import CallBinding.Proofs.Controller.Discipline
import CallBinding.Proofs.Controller.Disposal
import CallBinding.Proofs.Controller.Orderly
import CallBinding.Proofs.Controller.Alarms
import CallBinding.Proofs.Controller.Chronicle
import CallBinding.Proofs.Controller.Checks
import CallBinding.Proofs.Controller.Quiet
import CallBinding.Proofs.Controller.Horizon
import CallBinding.Proofs.Controller.Pace
import CallBinding.Proofs.Controller.Naming
import CallBinding.Proofs.Workbench.Moves
import CallBinding.Proofs.Workbench.Seats
import CallBinding.Proofs.Workbench.Sound
import CallBinding.Proofs.Workbench.Ordered
import CallBinding.Proofs.Workbench.Regular
import CallBinding.Proofs.Workbench.Timers
import CallBinding.Proofs.Workbench.Idempotence
import CallBinding.Proofs.Workbench.Checks
import CallBinding.Proofs.Workbench.Schedule
import CallBinding.Proofs.Workbench.Cleanup
import CallBinding.Proofs.Workbench.Sessions
import CallBinding.Proofs.Workbench.Closing
import CallBinding.Proofs.Workbench.Convergence
import CallBinding.Proofs.Workbench.Listeners
import CallBinding.Proofs.Workbench.Silence
import CallBinding.Proofs.Workbench.Discipline
import CallBinding.Proofs.Workbench.Disposal
import CallBinding.Proofs.Workbench.Quiescence
import CallBinding.Proofs.Workbench.Binding
import CallBinding.Proofs.Workbench.Sweep
import CallBinding.Proofs.Workbench.Stale
import CallBinding.Proofs.Workbench.Spawned
import CallBinding.Proofs.Workbench.Names
import CallBinding.Proofs.Controller.Snapshots
import CallBinding.Proofs.Workbench.Snapshots
import CallBinding.Proofs.Controller.Transactions
import CallBinding.Proofs.Workbench.Transactions
import CallBinding.Proofs.Family.Settled
import CallBinding.Proofs.Controller.Scaffolds
import CallBinding.Proofs.Workbench.Scaffolds
import CallBinding.Proofs.Editor.Reflexes
import CallBinding.Proofs.Controller.Reflexes
import CallBinding.Proofs.Workbench.Reflexes
import CallBinding.Proofs.Workbench.Suppression
import CallBinding.Proofs.Host.Leaky
import CallBinding.Proofs.Reconcile.Leaky
import CallBinding.Proofs.Controller.Leaky
import CallBinding.Proofs.Workbench.Leaky
import CallBinding.Proofs.Host.Works
import CallBinding.Proofs.Workbench.Works
import CallBinding.Proofs.Editor.Edits
import CallBinding.Proofs.Editor.Store
import CallBinding.Proofs.Workbench.Store
import CallBinding.Proofs.Editor.Stream
import CallBinding.Proofs.Workbench.Stream
import CallBinding.Proofs.Family.Succession
import CallBinding.Proofs.Family.Outcome
import CallBinding.Proofs.Controller.Log
import CallBinding.Proofs.Workbench.Log
import CallBinding.Proofs.Family.Worth
import CallBinding.Proofs.Family.Orders
import CallBinding.Proofs.Family.Agreement
import CallBinding.Proofs.Reconcile.Outcomes
import CallBinding.Proofs.Workbench.Aligned
import CallBinding.Proofs.Text.Blank
import CallBinding.Proofs.Name.Variants
import CallBinding.Proofs.Text.Decimal
import CallBinding.Proofs.Settings.Agreement
import CallBinding.Proofs.Codec.Graph
import CallBinding.Proofs.OrderedMap
