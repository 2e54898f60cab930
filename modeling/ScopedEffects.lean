import ScopedEffects.Effect.CatchTable
import ScopedEffects.Program.Parallel
import ScopedEffects.RunId
import ScopedEffects.Runner
import ScopedEffects.Proofs.WaitGraph.Edges
import ScopedEffects.Proofs.WaitGraph.Search
import ScopedEffects.Proofs.Store.Lookup
import ScopedEffects.Proofs.Traffic.Basic
import ScopedEffects.Proofs.Traffic.Effect
import ScopedEffects.Proofs.Traffic.Polls
import ScopedEffects.Proofs.Traffic.Orderly
import ScopedEffects.Proofs.Traffic.Deadlock
import ScopedEffects.Proofs.Traffic.Slots
import ScopedEffects.Proofs.Traffic.Sharing
import ScopedEffects.Proofs.Execution.Branches
import ScopedEffects.Proofs.Execution.Crew
import ScopedEffects.Proofs.Execution.Gather
import ScopedEffects.Proofs.Execution.Sound
import ScopedEffects.Proofs.Execution.Places
import ScopedEffects.Proofs.Execution.Signals
import ScopedEffects.Proofs.Execution.Story
import ScopedEffects.Proofs.Execution.Finalizers
import ScopedEffects.Proofs.Execution.Panics
import ScopedEffects.Proofs.Store.Liveness
import ScopedEffects.Proofs.Traffic.Lifetimes
import ScopedEffects.Proofs.Traffic.Cache
import ScopedEffects.Proofs.Traffic.Refinement
import ScopedEffects.Proofs.Traffic.Scoping
import ScopedEffects.Proofs.Traffic.Chores
import ScopedEffects.Proofs.Traffic.Readiness
import ScopedEffects.Proofs.Execution.Provision
import ScopedEffects.Proofs.Execution.Containment
import ScopedEffects.Proofs.Execution.Contests
import ScopedEffects.Proofs.Execution.Operations
import ScopedEffects.Proofs.Execution.Chronicle
import ScopedEffects.Proofs.Execution.Aborting
import ScopedEffects.Proofs.Execution.Cancelled
import ScopedEffects.Proofs.Execution.Taps
import ScopedEffects.Proofs.Execution.Chores
import ScopedEffects.Proofs.Execution.Rest
import ScopedEffects.Proofs.Execution.Heeding
import ScopedEffects.Proofs.Execution.Promptness
import ScopedEffects.Proofs.Conduct.Programs
import ScopedEffects.Proofs.Conduct.Stores
import ScopedEffects.Proofs.Conduct.Effects
import ScopedEffects.Proofs.Conduct.Arming
import ScopedEffects.Proofs.Conduct.Isolation
import ScopedEffects.Proofs.Effect.Defects
import ScopedEffects.Proofs.WaitGraph.Mirror
import ScopedEffects.Proofs.WaitGraph.Paths
import ScopedEffects.Proofs.WaitGraph.History
import ScopedEffects.Proofs.WaitGraph.Orders
import ScopedEffects.Proofs.Traffic.LiveWaits
import ScopedEffects.Proofs.Execution.Scopes
import ScopedEffects.Proofs.Execution.Admission
import ScopedEffects.Proofs.Execution.Timely
import ScopedEffects.Proofs.Execution.Timeouts
import ScopedEffects.Proofs.Number.Rounding
import ScopedEffects.Proofs.Number.Power
import ScopedEffects.Proofs.Effect.Backoff
import ScopedEffects.Proofs.Execution.Above
import ScopedEffects.Proofs.Execution.Repeats
import ScopedEffects.Proofs.Execution.Retries
import ScopedEffects.Proofs.Execution.Alternatives
import ScopedEffects.Proofs.Execution.Sequence
import ScopedEffects.Proofs.Execution.InTurn
import ScopedEffects.Proofs.Provider.Construction
import ScopedEffects.Proofs.Execution.CatchTables
import ScopedEffects.Proofs.Traffic.Ownership
import ScopedEffects.Proofs.Execution.Chaining
import ScopedEffects.Proofs.RunId.Text
import ScopedEffects.Proofs.Program.Promises
import ScopedEffects.Proofs.Effect.Shapes
import ScopedEffects.Proofs.Execution.Shapes
import ScopedEffects.Proofs.Execution.Erasure
