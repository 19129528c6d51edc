import Blackboard.Main
import Blackboard.Scenario.Session
import Blackboard.Scenario.Drill
import Blackboard.Proofs.Conservation
import Blackboard.Proofs.LeastFixpoint
import Blackboard.Proofs.Precedence
import Blackboard.Proofs.Monotone
import Blackboard.Proofs.StaleLinks
import Blackboard.Proofs.Contributions
import Blackboard.Proofs.Purity
import Blackboard.Proofs.Course
import Blackboard.Proofs.Progress
import Blackboard.Proofs.Stopping
import Blackboard.Proofs.Twins
import Blackboard.Proofs.Validation
import Blackboard.Proofs.Asking
import Blackboard.Proofs.FailedCalls
import Blackboard.Proofs.LazyScheduling
import Blackboard.Proofs.Triggering
import Blackboard.Proofs.Aggregation
import Blackboard.Proofs.Tracers
import Blackboard.Proofs.ClosedGroups
import Blackboard.Proofs.Completion
import Blackboard.Proofs.Bookkeeping
import Blackboard.Proofs.Accounts
import Blackboard.Proofs.Notification
import Blackboard.Proofs.Awaiting
import Blackboard.Proofs.CycleResolution
