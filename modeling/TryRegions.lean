import TryRegions.Diagnostic.Report
import TryRegions.Runner
import TryRegions.Proofs.Graph.WellFormed
import TryRegions.Proofs.Graph.Edits
import TryRegions.Proofs.Graph.Rewiring
import TryRegions.Proofs.Graph.Extension
import TryRegions.Proofs.Dominance.Path
import TryRegions.Proofs.Dominance.Order
import TryRegions.Proofs.Dominance.Parents
import TryRegions.Proofs.Dominance.Rounds
import TryRegions.Proofs.Dominance.Termination
import TryRegions.Proofs.Dominance.Exact
import TryRegions.Proofs.Dominance.Queries
import TryRegions.Proofs.Dominance.Frontier
import TryRegions.Proofs.Dominance.CommonDominator
import TryRegions.Proofs.Dominance.Region
import TryRegions.Proofs.Text.Order
import TryRegions.Proofs.Diagnostic.Comments
import TryRegions.Proofs.ClassHierarchy
import TryRegions.Proofs.ClauseOrder
import TryRegions.Proofs.ClauseOrder.Independence
import TryRegions.Proofs.ClauseOrder.Precedence
import TryRegions.Proofs.Forest
import TryRegions.Proofs.Method.Edits
import TryRegions.Proofs.Method.Registration
import TryRegions.Proofs.Recovery.Logic
import TryRegions.Proofs.Recovery.Sound
import TryRegions.Proofs.Recovery.Entry
import TryRegions.Proofs.Recovery.Nesting
import TryRegions.Proofs.Recovery.Removal
import TryRegions.Proofs.Recovery.ClauseMerge
import TryRegions.Proofs.Recovery.Grouping
import TryRegions.Proofs.Recovery.Wiring
import TryRegions.Proofs.Recovery.Pass
import TryRegions.Proofs.Forest.Nested
import TryRegions.Proofs.Recovery.Combination
import TryRegions.Proofs.Graph.Trace
import TryRegions.Proofs.Graph.Code
import TryRegions.Proofs.Recovery.Trace
import TryRegions.Proofs.Recovery.Edits
import TryRegions.Proofs.Recovery.Entering
import TryRegions.Proofs.Recovery.Passage
import TryRegions.Proofs.Recovery.Bodies
import TryRegions.Proofs.Graph.Live
import TryRegions.Proofs.Recovery.Joining
import TryRegions.Proofs.Recovery.Survival
import TryRegions.Proofs.Recovery.Partition
import TryRegions.Proofs.Recovery.Wrapping
import TryRegions.Proofs.Recovery.Attachment
import TryRegions.Proofs.Recovery.Splitters
import TryRegions.Proofs.Recovery.Intake
import TryRegions.Proofs.Recovery.Containment
import TryRegions.Proofs.Recovery.Stability
import TryRegions.Proofs.Recovery.Waiting
import TryRegions.Proofs.Recovery.Attempts
import TryRegions.Proofs.Recovery.Termination
import TryRegions.Proofs.Recovery.Exhaustion
import TryRegions.Proofs.Recovery.Instructions
import TryRegions.Proofs.Recovery.Binding
import TryRegions.Proofs.Runner
import TryRegions.Proofs.Dominance.Join
import TryRegions.Proofs.Graph.Detach
import TryRegions.Proofs.Graph.Split
import TryRegions.Proofs.Graph.Reach
import TryRegions.Proofs.Recovery.Freshness
import TryRegions.Proofs.ClauseOrder.Placement
