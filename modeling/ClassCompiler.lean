import ClassCompiler.Command.Directory
import ClassCompiler.Main
import ClassCompiler.Proofs.Flow.Graph
import ClassCompiler.Proofs.Flow.Liveness
import ClassCompiler.Proofs.Lowering.Expressions
import ClassCompiler.Proofs.Lowering.Labels
import ClassCompiler.Proofs.Lowering.Preservation
import ClassCompiler.Proofs.Lowering.Statements
import ClassCompiler.Proofs.Lowering.Steps
import ClassCompiler.Proofs.Lowering.Values
import ClassCompiler.Proofs.Machine.Code
import ClassCompiler.Proofs.Machine.Effect
import ClassCompiler.Proofs.Machine.Listing
import ClassCompiler.Proofs.Machine.Reading
import ClassCompiler.Proofs.Machine.Run
import ClassCompiler.Proofs.NameSet
import ClassCompiler.Proofs.Outcome
import ClassCompiler.Proofs.Registers.Coloring
import ClassCompiler.Proofs.Registers.Interference
import ClassCompiler.Proofs.Registers.Preservation
import ClassCompiler.Proofs.Source.Semantics
import ClassCompiler.Proofs.Stack.Depth
import ClassCompiler.Proofs.Stack.Discipline
import ClassCompiler.Proofs.Stack.Layout
import ClassCompiler.Proofs.Stack.Lowered
import ClassCompiler.Proofs.Stack.Machine
import ClassCompiler.Proofs.Stack.Preservation
import ClassCompiler.Proofs.Stack.Simulation
import ClassCompiler.Proofs.Text.Numbered
import ClassCompiler.Proofs.Flow.Paths
import ClassCompiler.Proofs.Registers.Selection
import ClassCompiler.Proofs.Registers.Core
import ClassCompiler.Proofs.Stack.Shortening
import ClassCompiler.Proofs.Stack.Increment
import ClassCompiler.Proofs.Code.Form
import ClassCompiler.Proofs.Source.Mentions
import ClassCompiler.Proofs.Lowering.Instructions
import ClassCompiler.Proofs.Lowering.Methods
import ClassCompiler.Proofs.Registers.Allocation
import ClassCompiler.Proofs.Registers.Assigned
import ClassCompiler.Proofs.Stack.Faults
import ClassCompiler.Proofs.Registers.Frames
import ClassCompiler.Proofs.Stack.Slots
import ClassCompiler.Proofs.Stack.Frame
import ClassCompiler.Proofs.Stack.Walks
import ClassCompiler.Proofs.Stack.Kinds
import ClassCompiler.Proofs.Code.Erased
import ClassCompiler.Proofs.Stack.Bounds
import ClassCompiler.Proofs.Json.Scanning
import ClassCompiler.Proofs.Json.Reading
import ClassCompiler.Proofs.Json.Inverses
import ClassCompiler.Proofs.Document.Inverses
import ClassCompiler.Proofs.Lowering.Typing
import ClassCompiler.Proofs.Lowering.Sites
import ClassCompiler.Proofs.Stack.Sites
import ClassCompiler.Proofs.Stack.Constructors
import ClassCompiler.Proofs.Stack.Links
import ClassCompiler.Proofs.Registers.Vertices
import ClassCompiler.Proofs.Lowering.Blocks
import ClassCompiler.Proofs.Lowering.Temporaries
import ClassCompiler.Proofs.Lowering.ThreeAddress
import ClassCompiler.Proofs.Flow.Passes
import ClassCompiler.Proofs.Registers.WriteBack
import ClassCompiler.Proofs.Source.Overloads
import ClassCompiler.Proofs.Stack.Descriptors
import ClassCompiler.Proofs.Registers.Additions
import ClassCompiler.Proofs.Lowering.Numbering
import ClassCompiler.Proofs.Stack.Replay
import ClassCompiler.Proofs.Stack.Footprint
import ClassCompiler.Proofs.NameMap
import ClassCompiler.Proofs.Source.Declarations
import ClassCompiler.Proofs.Stack.Calls
import ClassCompiler.Proofs.Stack.Overflow
