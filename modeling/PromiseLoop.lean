import PromiseLoop.Script.Run
import PromiseLoop.Session.HeapSession
import PromiseLoop.Session.QueueSession
import PromiseLoop.Session.RecordSession
import PromiseLoop.Config.Reader
import PromiseLoop.Config.Writer
import PromiseLoop.Proofs.FirstAttempt
import PromiseLoop.Proofs.Reports
import PromiseLoop.Proofs.Handles.Books
import PromiseLoop.Proofs.Handles.Calls
import PromiseLoop.Proofs.Handles.Commands
import PromiseLoop.Proofs.Handles.Runs
import PromiseLoop.Proofs.Activities
import PromiseLoop.Proofs.Handles.Collections
import PromiseLoop.Proofs.Handles.Rings
import PromiseLoop.Proofs.Drains
import PromiseLoop.Proofs.Background.Waits
import PromiseLoop.Proofs.Adoption.Runs
import PromiseLoop.Proofs.Checkpoints
import PromiseLoop.Proofs.Constructions.Outcomes
import PromiseLoop.Proofs.Trees.Schedules
import PromiseLoop.Proofs.RecordStates
import PromiseLoop.Proofs.Faults.Commands
import PromiseLoop.Proofs.Workloads.Hosts
import PromiseLoop.Proofs.Occasions.Accounts
import PromiseLoop.Proofs.Flattening
import PromiseLoop.Proofs.Thenables.Chains
import PromiseLoop.Proofs.HeapLogs
import PromiseLoop.Proofs.Objects.Reads
import PromiseLoop.Proofs.Orders.Registering
import PromiseLoop.Proofs.Texts.Configurations
