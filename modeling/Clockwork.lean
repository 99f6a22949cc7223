import Clockwork.Main
import Clockwork.Pool.Compile
import Clockwork.Pool.Fold
import Clockwork.Pool.Traversal
import Clockwork.Pool.Vars
import Clockwork.Proofs.Containers
import Clockwork.Proofs.Decision
import Clockwork.Run.Graph
import Clockwork.Proofs.Reduction
import Clockwork.Proofs.KnownLiterals
import Clockwork.Proofs.Construction
import Clockwork.Proofs.Runs
import Clockwork.Proofs.Simplification
import Clockwork.Proofs.Guards
import Clockwork.Proofs.Transitions
import Clockwork.Proofs.Selection
import Clockwork.Proofs.WaitExpansion
import Clockwork.Proofs.Routes
import Clockwork.Proofs.Refinement
import Clockwork.Proofs.Growth
import Clockwork.Proofs.Passes
import Clockwork.Proofs.Enumeration
import Clockwork.Proofs.Layout
import Clockwork.Proofs.Source
import Clockwork.Proofs.Execution
import Clockwork.Proofs.MainLoop
import Clockwork.Proofs.StateName
import Clockwork.Proofs.Registers
import Clockwork.Proofs.CounterNames
import Clockwork.Proofs.Waiting
import Clockwork.Proofs.Counting
import Clockwork.Proofs.BoundedWaits
import Clockwork.Proofs.DecidedBranches
import Clockwork.Proofs.Bypass
import Clockwork.Proofs.DeadTransitions
import Clockwork.Proofs.Interning
import Clockwork.Proofs.SharedFolding
import Clockwork.Proofs.SharedNames
import Clockwork.Proofs.Relabelling
import Clockwork.Proofs.SharedPropagation
import Clockwork.Proofs.SharedWaits
import Clockwork.Proofs.SharedFlow
import Clockwork.Proofs.SharedMachine
import Clockwork.Proofs.SharedCompilation
import Clockwork.Proofs.History
import Clockwork.Proofs.Integrity
import Clockwork.Proofs.Walks
import Clockwork.Proofs.Confinement
import Clockwork.Proofs.PathExecution
import Clockwork.Proofs.RegisterTransfer
import Clockwork.Proofs.SharedValues
import Clockwork.Proofs.SharedLiterals
import Clockwork.Proofs.NormalForms
import Clockwork.Proofs.ExactArithmetic
import Clockwork.Proofs.NormalGraphs
import Clockwork.Proofs.Cycles
import Clockwork.Proofs.Refusals
import Clockwork.Proofs.Acceptance
import Clockwork.Proofs.Unrolling
import Clockwork.Proofs.RegisterTable
import Clockwork.Proofs.Condensation
import Clockwork.Proofs.SymbolicExecution
import Clockwork.Proofs.CounterBounds
import Clockwork.Proofs.ClockEdges
import Clockwork.Proofs.CanonicalRefs
import Clockwork.Proofs.UniqueReading
import Clockwork.Proofs.Traversals
import Clockwork.Proofs.Memoization
import Clockwork.Proofs.NameCollection
