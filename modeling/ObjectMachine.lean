import ObjectMachine.Main
import ObjectMachine.Proofs.Heap.Marking
import ObjectMachine.Proofs.Heap.Collection
import ObjectMachine.Proofs.Heap.Identity
import ObjectMachine.Proofs.Table.Chain
import ObjectMachine.Proofs.Table.WellFormed
import ObjectMachine.Proofs.Table.Changes
import ObjectMachine.Proofs.Dictionary.Invariant
import ObjectMachine.Proofs.Table.FiniteMap
import ObjectMachine.Proofs.Dictionary.Refinement
import ObjectMachine.Proofs.Machine.Allocation
import ObjectMachine.Proofs.Number.Integer
import ObjectMachine.Proofs.Machine.Closed
import ObjectMachine.Proofs.Machine.Secure
import ObjectMachine.Proofs.Dictionary.Rooting
import ObjectMachine.Proofs.Machine.Raising
import ObjectMachine.Proofs.Machine.Operations
import ObjectMachine.Proofs.Frames.Control
import ObjectMachine.Proofs.Frames.Matching
import ObjectMachine.Proofs.Frames.Unwinding
import ObjectMachine.Proofs.Frames.Resources
import ObjectMachine.Proofs.Number.Equality
import ObjectMachine.Proofs.Machine.BuiltinKeys
import ObjectMachine.Proofs.Dictionary.Upholding
import ObjectMachine.Proofs.Dictionary.Careful
import ObjectMachine.Proofs.Dictionary.Corruption
import ObjectMachine.Proofs.Dictionary.Tombstones
import ObjectMachine.Proofs.Frames.Balance
import ObjectMachine.Proofs.Frames.Nesting
import ObjectMachine.Proofs.Program.Operations
import ObjectMachine.Proofs.Program.Evaluation
import ObjectMachine.Proofs.Program.Traps
import ObjectMachine.Proofs.Program.Stacks
import ObjectMachine.Proofs.Frames.UnwindState
import ObjectMachine.Proofs.Frames.Activity
import ObjectMachine.Proofs.Table.Iteration
import ObjectMachine.Proofs.Dictionary.Watching
import ObjectMachine.Proofs.Dictionary.Tending
import ObjectMachine.Proofs.Dictionary.Iterators
import ObjectMachine.Proofs.Table.Names
import ObjectMachine.Proofs.Machine.Interning
import ObjectMachine.Proofs.Machine.Discretion
import ObjectMachine.Proofs.Dictionary.Discretion
import ObjectMachine.Proofs.Program.Discretion
import ObjectMachine.Proofs.Machine.Bootstrap
import ObjectMachine.Proofs.Machine.Growth
import ObjectMachine.Proofs.Program.Symbols
import ObjectMachine.Proofs.Table.Density
import ObjectMachine.Proofs.Dictionary.Hosting
import ObjectMachine.Proofs.Dictionary.Density
import ObjectMachine.Proofs.Table.Drift
import ObjectMachine.Proofs.Dictionary.Traversal
import ObjectMachine.Proofs.Dictionary.Coverage
import ObjectMachine.Proofs.Dictionary.Filtering
import ObjectMachine.Proofs.Heap.Aging
import ObjectMachine.Proofs.Frames.Remembering
import ObjectMachine.Proofs.Frames.Contexts
import ObjectMachine.Proofs.Typing.Changes
import ObjectMachine.Proofs.Typing.Persistence
import ObjectMachine.Proofs.Typing.Behaviour
import ObjectMachine.Proofs.Number.Failure
import ObjectMachine.Proofs.Number.Powers
import ObjectMachine.Proofs.Number.Shifts
import ObjectMachine.Proofs.Number.Ordering
import ObjectMachine.Proofs.Number.Errors
import ObjectMachine.Proofs.Typing.Classes
import ObjectMachine.Proofs.Typing.Dispatch
import ObjectMachine.Proofs.Typing.Startup
import ObjectMachine.Proofs.Typing.Soundness
import ObjectMachine.Proofs.Number.Limits
import ObjectMachine.Proofs.Number.Digits
import ObjectMachine.Proofs.Number.Literals
import ObjectMachine.Proofs.Number.RoundTrip
import ObjectMachine.Proofs.Number.FloatLiterals
import ObjectMachine.Proofs.Dictionary.TextLookup
import ObjectMachine.Proofs.Dictionary.Deferral
import ObjectMachine.Proofs.Naming.Methods
import ObjectMachine.Proofs.Naming.Attributes
import ObjectMachine.Proofs.Table.EntryIds
import ObjectMachine.Proofs.Number.TrueDivision
import ObjectMachine.Proofs.Frames.Survival
import ObjectMachine.Proofs.Machine.Traces
import ObjectMachine.Proofs.Value.Encoding
