import Converge.Main
import Converge.Rehearsal.Actor
import Converge.Proofs.Building.Selection
import Converge.Proofs.Dispatch.Limits
import Converge.Proofs.Fleet.Attribution
import Converge.Proofs.Fleet.Cancellation
import Converge.Proofs.Fleet.Completion
import Converge.Proofs.Fleet.Crash
import Converge.Proofs.Fleet.Independence
import Converge.Proofs.Fleet.Ledger
import Converge.Proofs.Fleet.Notices
import Converge.Proofs.Fleet.Surroundings
import Converge.Proofs.Fleet.Verdict
import Converge.Proofs.Gate.Overcommitment
import Converge.Proofs.Gate.Paths
import Converge.Proofs.Inspection
import Converge.Proofs.Procedure.Checkout
import Converge.Proofs.Procedure.Publication
import Converge.Proofs.Procedure.Revision
import Converge.Proofs.Provision.Convergence
import Converge.Proofs.Provision.Isolation
import Converge.Proofs.Provision.Paths
import Converge.Proofs.Reference.Prefix
import Converge.Proofs.Visit.Cancellation
import Converge.Proofs.Visit.Chronicle
import Converge.Proofs.Visit.Counts
import Converge.Proofs.Visit.Failure
import Converge.Proofs.Visit.Repetition
