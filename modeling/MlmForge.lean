import MlmForge.Basis.Outcome
import MlmForge.Basis.Chain
import MlmForge.Basis.ChainCheck
import MlmForge.Basis.Passes
import MlmForge.Basis.Links
import MlmForge.Basis.Bfs
import MlmForge.Basis.Places
import MlmForge.Engine.Node
import MlmForge.Engine.Arena
import MlmForge.Engine.Restore
import MlmForge.Engine.Valid
import MlmForge.Engine.Grow
import MlmForge.Engine.Prune
import MlmForge.Engine.Unilevel
import MlmForge.Engine.Slots
import MlmForge.Engine.Binary
import MlmForge.Engine.Matrix
import MlmForge.Engine.MatrixValid
import MlmForge.Engine.MatrixPlace
import MlmForge.Engine.MatrixWalk
import MlmForge.Engine.MatrixPromote
import MlmForge.Engine.MatrixDepth
import MlmForge.Engine.MatrixRemove
import MlmForge.Engine.MatrixTank
import MlmForge.Engine.MatrixOps
import MlmForge.Engine.Operations
import MlmForge.Engine.Roster
import MlmForge.Engine.Instance
import MlmForge.Engine.Seating
import MlmForge.Basis.Table
import MlmForge.Network.Store
import MlmForge.Network.TreeLock
import MlmForge.Network.Rows
import MlmForge.Network.Refine
import MlmForge.Network.Loader
import MlmForge.Network.Reload
import MlmForge.Basis.Text
import MlmForge.Network.RunStore
import MlmForge.Network.RunLifecycle
import MlmForge.Basis.Kahn
import MlmForge.Basis.Acyclic
import MlmForge.Engine.Lineage
import MlmForge.Engine.Walks
import MlmForge.Engine.SponsorForest
import MlmForge.Basis.Maps
import MlmForge.Basis.Triple
import MlmForge.Basis.Packed
import MlmForge.BoardPlan.Board
import MlmForge.BoardPlan.Engine
import MlmForge.BoardPlan.Invariant
import MlmForge.BoardPlan.Split
import MlmForge.BoardPlan.Cycles
import MlmForge.BoardPlan.Calls
import MlmForge.BoardPlan.Runs
import MlmForge.BoardPlan.Division
import MlmForge.BoardPlan.Cascade
import MlmForge.Streamline.Chain
import MlmForge.Streamline.Engine
import MlmForge.Streamline.Leave
import MlmForge.Streamline.Invariant
import MlmForge.Streamline.Calls
import MlmForge.Streamline.Exits
import MlmForge.Streamline.Runs
import MlmForge.Streamline.Compaction
import MlmForge.Streamline.Frames
import MlmForge.Streamline.Cursor
import MlmForge.Streamline.Allowance
import MlmForge.Basis.Mutex
import MlmForge.Basis.Paging
import MlmForge.Platform.CanonicalUuid
import MlmForge.Platform.EventStore
import MlmForge.Network.AppendOutcome
import MlmForge.Platform.Interleavings
import MlmForge.Basis.Climb
import MlmForge.Basis.Gates
import MlmForge.Engine.Navigator
import MlmForge.Rank.Decimal
import MlmForge.Rank.Exactness
import MlmForge.Rank.Predicates
import MlmForge.Rank.Evaluate
import MlmForge.Rank.Monotone
import MlmForge.Rank.Fixpoint
import MlmForge.Rank.Achievement
import MlmForge.Rank.Breakaway
import MlmForge.Basis.HashOrder
import MlmForge.Basis.Apportion
import MlmForge.Basis.Wide
import MlmForge.Basis.HalfEven
import MlmForge.Commission.Money
import MlmForge.Commission.ActiveLegs
import MlmForge.Commission.Allocation
import MlmForge.Commission.Rounding
import MlmForge.Basis.Subtree
import MlmForge.Commission.Plan
import MlmForge.Commission.Legs
import MlmForge.Commission.Binary
import MlmForge.Commission.Pairing
import MlmForge.Basis.Ladder
import MlmForge.Commission.CycleStep
import MlmForge.Commission.CycleLoop
import MlmForge.Commission.LegSums
import MlmForge.Commission.BoardCycles
import MlmForge.Basis.Tiling
import MlmForge.Basis.Calendar
import MlmForge.Basis.Numerals
import MlmForge.Platform.Period
import MlmForge.Engine.UserView
import MlmForge.Engine.TankRoundTrip
import MlmForge.Engine.PromoteEarliest
import MlmForge.Engine.SpilloverOrder
import MlmForge.Engine.Position
import MlmForge.Engine.Traversals
