import Workplan.Session.Run
import Workplan.Proofs.Moves
import Workplan.Proofs.Engines
import Workplan.Proofs.Forest
import Workplan.Proofs.Reachable
import Workplan.Proofs.Layers
import Workplan.Proofs.Runs
import Workplan.Proofs.Bounds
import Workplan.Proofs.Demands
import Workplan.Proofs.Dating
import Workplan.Proofs.Outcomes
import Workplan.Proofs.Rerun
import Workplan.Proofs.LeafStart
import Workplan.Proofs.Blocks
import Workplan.Proofs.Schedulable
import Workplan.Proofs.Fitting
import Workplan.Proofs.Waves
import Workplan.Proofs.Flat
import Workplan.Proofs.Resolving
import Workplan.Proofs.Settled
import Workplan.Proofs.Agreement
import Workplan.Proofs.KeyPairs
import Workplan.Proofs.Names
import Workplan.Proofs.Levels
import Workplan.Proofs.Longest
import Workplan.Proofs.Kahn
import Workplan.Proofs.Layering
import Workplan.Proofs.Reactions
import Workplan.Proofs.Consistent
import Workplan.Proofs.Refusals
import Workplan.Proofs.Repeating
import Workplan.Proofs.Branches
import Workplan.Proofs.Cycles
import Workplan.Proofs.CycleFaults
import Workplan.Proofs.Steps
import Workplan.Proofs.Enclosing
import Workplan.Proofs.Collecting
import Workplan.Proofs.Upheld
import Workplan.Proofs.Written
import Workplan.Proofs.Isolation
import Workplan.Proofs.AnyOrder
import Workplan.Proofs.Lengths
import Workplan.Proofs.Anchored
import Workplan.Proofs.Forgetting
import Workplan.Proofs.Planned
import Workplan.Proofs.Recording
import Workplan.Proofs.Recorders
import Workplan.Proofs.Shifts
import Workplan.Proofs.Delays
import Workplan.Proofs.Leaves
import Workplan.Proofs.Grouping
import Workplan.Proofs.Simulation
import Workplan.Proofs.SelfWatch
import Workplan.Proofs.Announced
import Workplan.Proofs.Landings
import Workplan.Proofs.Slides
import Workplan.Proofs.Refitting
import Workplan.Proofs.Worklist
import Workplan.Proofs.Distances
import Workplan.Proofs.Stepwise
import Workplan.Proofs.Arenas
import Workplan.Proofs.Untouched
import Workplan.Proofs.FinishBarriers
import Workplan.Proofs.Cuts
import Workplan.Proofs.EdgeOrder
import Workplan.Proofs.Windows
import Workplan.Proofs.ShiftLaws
import Workplan.Proofs.IntervalLaws
import Workplan.Proofs.Searches
