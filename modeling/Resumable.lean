import Resumable.Cli.Arguments
import Resumable.Cli.Command
import Resumable.CompileError
import Resumable.Decimal.Binary
import Resumable.Decimal.Numeral
import Resumable.Decimal.Reader
import Resumable.Decimal.Shortest
import Resumable.Graph.Basic
import Resumable.Graph.Builder
import Resumable.Graph.Instruction
import Resumable.Graph.Layout
import Resumable.Graph.Printer
import Resumable.Host
import Resumable.Lowering.Basic
import Resumable.Lowering.Binding
import Resumable.Lowering.Control
import Resumable.Lowering.Form
import Resumable.Lowering.Object
import Resumable.Lowering.Try
import Resumable.Main
import Resumable.Number.Remainder
import Resumable.Number.Word
import Resumable.Primitive.Arithmetic
import Resumable.Primitive.Basic
import Resumable.Primitive.Call
import Resumable.Primitive.Collection
import Resumable.Primitive.Comparison
import Resumable.Program.Basic
import Resumable.Program.Compile
import Resumable.Program.Emit
import Resumable.Proofs.Lowering.Attempt
import Resumable.Proofs.Lowering.Checked
import Resumable.Proofs.Lowering.Closed
import Resumable.Proofs.Lowering.Code
import Resumable.Proofs.Lowering.Draft
import Resumable.Proofs.Lowering.Enclosed
import Resumable.Proofs.Lowering.Fits
import Resumable.Proofs.Lowering.Forms
import Resumable.Proofs.Lowering.Graph
import Resumable.Proofs.Lowering.Growth
import Resumable.Proofs.Lowering.Laid
import Resumable.Proofs.Lowering.Shape
import Resumable.Proofs.Lowering.Sound
import Resumable.Proofs.Slots.Layout
import Resumable.Proofs.Slots.Linked
import Resumable.Proofs.Slots.Plain
import Resumable.Proofs.Lowering.Steps
import Resumable.Proofs.Monad
import Resumable.Proofs.Table
import Resumable.Run.Exec
import Resumable.Run.Handler
import Resumable.Run.Printer
import Resumable.Run.State
import Resumable.Run.Step
import Resumable.Scope.Aliases
import Resumable.Scope.Terminators
import Resumable.Source.Form
import Resumable.Source.Lexer
import Resumable.Source.Printer
import Resumable.Source.ReadError
import Resumable.Source.Reader
import Resumable.Source.Span
import Resumable.Source.Token
import Resumable.Sugar.Expander
import Resumable.Sugar.Stock
import Resumable.Table
import Resumable.Text.Blank
import Resumable.Text.Hidden
import Resumable.Text.Quoted
import Resumable.Value.Arity
import Resumable.Value.Basic
import Resumable.Value.Collection
import Resumable.Value.Equality
import Resumable.Value.Fault
import Resumable.Value.Heap
import Resumable.Value.Printer
import Resumable.Value.Store
import Resumable.Proofs.Lowering.Stands
import Resumable.Proofs.Slots.Simulation
import Resumable.Proofs.Slots.Assignment
import Resumable.Proofs.Slots.Refinement
import Resumable.Proofs.Handlers.Stack
import Resumable.Proofs.Handlers.Discipline
import Resumable.Proofs.Handlers.Run
import Resumable.Proofs.Handlers.Body
import Resumable.Proofs.Handlers.Course
import Resumable.Proofs.Handlers.Propagation
import Resumable.Proofs.Lowering.Sorted
import Resumable.Proofs.Faults.Thrown
import Resumable.Proofs.Faults.Poised
import Resumable.Proofs.Faults.Safe
import Resumable.Proofs.Handlers.Protected
import Resumable.Proofs.Meaning.Direct
import Resumable.Proofs.Meaning.Native
import Resumable.Proofs.Meaning.Moves
import Resumable.Proofs.Meaning.Reading
import Resumable.Proofs.Meaning.Drive
import Resumable.Proofs.Meaning.Follows
import Resumable.Proofs.Meaning.Simulation
import Resumable.Proofs.Meaning.Correct
import Resumable.Proofs.Lowering.Rerouted
import Resumable.Proofs.Running.Inline
import Resumable.Proofs.Closures.Called
import Resumable.Proofs.Faults.Rethrown
import Resumable.Proofs.Running.Silent
import Resumable.Proofs.Faults.Preserved
import Resumable.Proofs.Lowering.Sealed
import Resumable.Proofs.Source.Read
import Resumable.Proofs.Lowering.Kept
import Resumable.Proofs.Lowering.Restored
import Resumable.Proofs.Lowering.Distinct
import Resumable.Proofs.Lowering.Comprised
import Resumable.Proofs.Slots.Parallel
import Resumable.Proofs.Slots.Unaliased
import Resumable.Proofs.Lowering.Received
import Resumable.Proofs.Handlers.Paired
import Resumable.Proofs.Slots.Handed
import Resumable.Proofs.Slots.Tight
import Resumable.Proofs.Sugar.Steps
import Resumable.Proofs.Lowering.Inside
import Resumable.Proofs.Lowering.Depth
import Resumable.Proofs.Lowering.Locals
import Resumable.Proofs.Running.Connected
import Resumable.Proofs.Sugar.Scheme
import Resumable.Proofs.Sugar.Code
import Resumable.Proofs.Sugar.Hygiene
import Resumable.Proofs.Source.Spans
import Resumable.Proofs.Values.Arithmetic
import Resumable.Proofs.Values.Distinct
import Resumable.Proofs.Values.Insertion
import Resumable.Proofs.Scope.Aliases
import Resumable.Proofs.Lowering.Clauses
import Resumable.Proofs.Lowering.Data
import Resumable.Proofs.Meaning.Data
import Resumable.Proofs.Running.Operands
