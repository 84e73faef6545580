import SlotLisp.Arity
import SlotLisp.Builtin
import SlotLisp.Builtin.Apply
import SlotLisp.CommandLine
import SlotLisp.Double.Rounding
import SlotLisp.Double.Shortest
import SlotLisp.Double.Text
import SlotLisp.Error
import SlotLisp.Eval
import SlotLisp.Integer
import SlotLisp.Machine
import SlotLisp.Machine.Execution
import SlotLisp.Machine.Simulation
import SlotLisp.Main
import SlotLisp.Program
import SlotLisp.Reader
import SlotLisp.Reader.Datum
import SlotLisp.Reader.Fault
import SlotLisp.Reader.Literal
import SlotLisp.Reader.Trivia
import SlotLisp.Run
import SlotLisp.SpecialForm
import SlotLisp.Store
import SlotLisp.Store.Bindings
import SlotLisp.Store.Inspect
import SlotLisp.Text.Blank
import SlotLisp.Text.Quoted
import SlotLisp.Text.Shapeless
import SlotLisp.Value.Basic
import SlotLisp.Value.Equality
import SlotLisp.Value.Printer
import SlotLisp.Proofs.Reader.Grammar
import SlotLisp.Proofs.Reader.Acceptance
import SlotLisp.Proofs.Machine.Unlimited
import SlotLisp.Proofs.Store.Growth
import SlotLisp.Proofs.Store.Writes
import SlotLisp.Proofs.Text.ByteOrder
import SlotLisp.Proofs.Store.Listing
import SlotLisp.Proofs.Value.Parts
import SlotLisp.Proofs.Evaluation.Discipline
import SlotLisp.Proofs.Evaluation.Reachable
import SlotLisp.Proofs.Evaluation.Locality
import SlotLisp.Proofs.Evaluation.Isolation
import SlotLisp.Proofs.Double.Bits
import SlotLisp.Proofs.Double.Nearest
import SlotLisp.Proofs.Double.Shortest
import SlotLisp.Proofs.Double.Printing
import SlotLisp.Proofs.Reader.Image
import SlotLisp.Proofs.Value.RoundTrip
import SlotLisp.Proofs.Evaluation.CallLimit
import SlotLisp.Proofs.Evaluation.Reduction
import SlotLisp.Proofs.Evaluation.Termination
import SlotLisp.Proofs.Evaluation.Coupling
import SlotLisp.Proofs.Evaluation.Hygiene
import SlotLisp.Proofs.Evaluation.Calls
import SlotLisp.Proofs.Evaluation.Threading
import SlotLisp.Proofs.Reader.Extension
import SlotLisp.Proofs.Reader.Pieces
import SlotLisp.Proofs.Reader.Cursor
import SlotLisp.Proofs.Reader.DepthLimit
import SlotLisp.Proofs.Evaluation.Overwriting
import SlotLisp.Proofs.Evaluation.LetScope
import SlotLisp.Proofs.Evaluation.Recording
import SlotLisp.Proofs.Evaluation.ErrorContext
import SlotLisp.Proofs.Builtin.Failures
import SlotLisp.Proofs.Evaluation.Shapes
import SlotLisp.Proofs.Evaluation.Malformed
import SlotLisp.Proofs.Reader.Faults
import SlotLisp.Proofs.Reader.OneDatum
import SlotLisp.Proofs.Reader.Snippet
import SlotLisp.Proofs.Double.Comparison
import SlotLisp.Proofs.Value.Sharing
import SlotLisp.Proofs.Reader.Layout
import SlotLisp.Proofs.Builtin.Exactness
import SlotLisp.Proofs.Builtin.Promotion
import SlotLisp.Proofs.Builtin.Conversions
import SlotLisp.Proofs.CommandLine.Arguments
import SlotLisp.Proofs.CommandLine.Outcome
import SlotLisp.Proofs.Builtin.Counts
import SlotLisp.Proofs.Evaluation.Operands
import SlotLisp.Proofs.Evaluation.Hosts
