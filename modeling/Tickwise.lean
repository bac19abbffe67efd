import Tickwise.Main
import Tickwise.Console.Folder
import Tickwise.Proofs.Search
import Tickwise.Proofs.Source.Pieces
import Tickwise.Proofs.Storage.Heap
import Tickwise.Proofs.Storage.Alike
import Tickwise.Proofs.Storage.Text
import Tickwise.Proofs.Storage.Mirror
import Tickwise.Proofs.Storage.Arrays
import Tickwise.Proofs.Native.Protocol
import Tickwise.Proofs.Native.Library
import Tickwise.Proofs.Native.Plain
import Tickwise.Proofs.Compile.Reads
import Tickwise.Proofs.Compile.Trees
import Tickwise.Proofs.Compile.Building
import Tickwise.Proofs.Compile.Expressions
import Tickwise.Proofs.Compile.Statements
import Tickwise.Proofs.Compile.Headers
import Tickwise.Proofs.Compile.Units
import Tickwise.Proofs.Compile.Definitions
import Tickwise.Proofs.Compile.WellFormed
import Tickwise.Proofs.Compile.Errors
import Tickwise.Proofs.Compile.Beside
import Tickwise.Proofs.Compile.BesideExpressions
import Tickwise.Proofs.Compile.BesideStatements
import Tickwise.Proofs.Compile.BesideHeaders
import Tickwise.Proofs.Compile.Passes
import Tickwise.Proofs.Compile.Independence
import Tickwise.Proofs.Compile.Isolation
import Tickwise.Proofs.Machine.Frames
import Tickwise.Proofs.Machine.Turns
import Tickwise.Proofs.Machine.Depth
import Tickwise.Proofs.Machine.Plain
import Tickwise.Proofs.Machine.Blame
import Tickwise.Proofs.Machine.Positions
import Tickwise.Proofs.Machine.Adequacy
import Tickwise.Proofs.Machine.Agreement
import Tickwise.Proofs.Machine.InFlight
import Tickwise.Proofs.Machine.Paused
import Tickwise.Proofs.Machine.Serving
import Tickwise.Proofs.Machine.Invoked
import Tickwise.Proofs.Machine.Splitting
import Tickwise.Proofs.Machine.Mirror
import Tickwise.Proofs.Machine.Parallel
import Tickwise.Proofs.Machine.ParallelMoves
import Tickwise.Proofs.Codec.Bytes
import Tickwise.Proofs.Codec.Pairing
import Tickwise.Proofs.Codec.Planting
import Tickwise.Proofs.Codec.Value
import Tickwise.Proofs.Codec.Execution
import Tickwise.Proofs.Codec.Canonical
import Tickwise.Proofs.Codec.Resaving
import Tickwise.Proofs.Codec.Truncation
import Tickwise.Proofs.Typing.Shapes
import Tickwise.Proofs.Typing.Values
import Tickwise.Proofs.Typing.Operands
import Tickwise.Proofs.Typing.Instructions
import Tickwise.Proofs.Typing.Expressions
import Tickwise.Proofs.Typing.Statements
import Tickwise.Proofs.Typing.Routines
import Tickwise.Proofs.Typing.Units
import Tickwise.Proofs.Typing.Machine
import Tickwise.Proofs.Typing.Storage
import Tickwise.Proofs.Typing.Calls
import Tickwise.Proofs.Typing.Moves
import Tickwise.Proofs.Typing.Executions
import Tickwise.Proofs.Typing.Visits
import Tickwise.Proofs.Typing.Tags
import Tickwise.Proofs.Typing.Soundness
import Tickwise.Proofs.Compile.Emission
import Tickwise.Proofs.Compile.Jumps
import Tickwise.Proofs.Machine.Discipline
import Tickwise.Proofs.Machine.Keeping
import Tickwise.Proofs.Machine.KeepingMoves
import Tickwise.Proofs.Machine.KeepingRuns
import Tickwise.Proofs.Machine.KeepingParts
import Tickwise.Proofs.Typing.Keeping
import Tickwise.Proofs.Execution.Restore
import Tickwise.Proofs.Execution.Suspended
import Tickwise.Proofs.Execution.Steps
import Tickwise.Proofs.Execution.Paths
import Tickwise.Proofs.Execution.Budget
import Tickwise.Proofs.Execution.Parallel
import Tickwise.Proofs.Execution.Persistence
import Tickwise.Proofs.Execution.Reload
import Tickwise.Proofs.Execution.Rejection
import Tickwise.Proofs.Execution.Outcome
import Tickwise.Proofs.Execution.Unmatched
import Tickwise.Proofs.Execution.Calls
import Tickwise.Proofs.Execution.Stop
import Tickwise.Proofs.Execution.Keeping
import Tickwise.Proofs.Execution.Labels
import Tickwise.Proofs.Execution.Limits
import Tickwise.Proofs.Execution.Unlogged
import Tickwise.Proofs.Execution.Footprint
import Tickwise.Proofs.Execution.Backing
import Tickwise.Proofs.Execution.Growth
import Tickwise.Proofs.Execution.Interleaving
import Tickwise.Proofs.Compile.ReadExpressions
import Tickwise.Proofs.Sight.Instructions
import Tickwise.Proofs.Sight.Statements
import Tickwise.Proofs.Sight.Units
import Tickwise.Proofs.Sight.Scopes
import Tickwise.Proofs.Sight.Positions
import Tickwise.Proofs.Sight.Frames
import Tickwise.Proofs.Sight.Executions
import Tickwise.Proofs.Sight.Runs
import Tickwise.Proofs.Sight.Accesses
import Tickwise.Proofs.Machine.Jumps
import Tickwise.Proofs.Execution.Jumps
import Tickwise.Proofs.Machine.Outer
import Tickwise.Proofs.Machine.Unwinding
import Tickwise.Proofs.Execution.Activations
import Tickwise.Proofs.Scope.Overload
import Tickwise.Proofs.Machine.Constants
import Tickwise.Proofs.Compile.Successes
import Tickwise.Proofs.Compile.Comparison
import Tickwise.Proofs.Compile.Constants
import Tickwise.Proofs.Execution.Constants
import Tickwise.Proofs.Compile.Precedence
import Tickwise.Proofs.Execution.Assignments
import Tickwise.Proofs.Source.Partition
import Tickwise.Proofs.Source.Newline
import Tickwise.Proofs.Compile.Height
import Tickwise.Proofs.Compile.Rooms
import Tickwise.Proofs.Compile.Nesting
import Tickwise.Proofs.Machine.Twins
import Tickwise.Proofs.Machine.TwinMoves
import Tickwise.Proofs.Machine.TwinTurns
import Tickwise.Proofs.Machine.TwinCalls
import Tickwise.Proofs.Machine.TwinRuns
import Tickwise.Proofs.Machine.Overflow
import Tickwise.Proofs.Execution.Expansions
import Tickwise.Proofs.Compile.Tandem
import Tickwise.Proofs.Compile.TandemExpressions
import Tickwise.Proofs.Compile.Expansions
import Tickwise.Proofs.Compile.CompoundAssignments
import Tickwise.Proofs.Source.Literals
import Tickwise.Proofs.Codec.Extent
import Tickwise.Proofs.Storage.Layout
import Tickwise.Proofs.Typing.Texts
import Tickwise.Proofs.Scope.Declarations
import Tickwise.Proofs.Source.Integers
import Tickwise.Proofs.Native.Strings
import Tickwise.Proofs.Machine.Ancestors
import Tickwise.Proofs.Execution.Stack
