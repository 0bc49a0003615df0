import SmallC.Program.Draft
import SmallC.Text.Blank
import SmallC.Assembly.Line
import SmallC.Assembly.Reader
import SmallC.Source.FixedPoint
import SmallC.Source.Lexer
import SmallC.Allocation.Recency
import SmallC.Allocation.LinkedOrder
import SmallC.Scope
import SmallC.ScopeTree
import SmallC.Tree.Stmt
import SmallC.Allocation.Fault
import SmallC.Error
import SmallC.Parser.Cursor
import SmallC.Parser.Expression
import SmallC.Parser.Definition
import SmallC.Parser.Statement
import SmallC.Allocation.Allocator
import SmallC.Allocation.Blocks
import SmallC.Allocation.Calls
import SmallC.Allocation.Consistency
import SmallC.Generation.Arithmetic
import SmallC.Generation.Assignment
import SmallC.Generation.Condition
import SmallC.Generation.Block
import SmallC.Generation.Call
import SmallC.Generation.Expression
import SmallC.Generation.Statement
import SmallC.Compilation
import SmallC.CommandLine.FileTree
import SmallC.CommandLine.Options
import SmallC.CommandLine.Report
import SmallC.CommandLine.Session
import SmallC.Main
import SmallC.Proofs.Program.Optimization
import SmallC.Proofs.Allocation.Course
import SmallC.Proofs.Generation.Checking
import SmallC.Proofs.Allocation.Balance
import SmallC.Proofs.Generation.Balancing
import SmallC.Proofs.Generation.Frames
import SmallC.Proofs.Program.Rerouting
import SmallC.Proofs.Program.Returning
import SmallC.Proofs.Program.References
import SmallC.Proofs.Parsing.Renderings
import SmallC.Proofs.Parsing.Trees
import SmallC.Proofs.Parsing.Accepting
import SmallC.Proofs.Parsing.Bodies
import SmallC.Proofs.Allocation.Meeting
import SmallC.Proofs.Allocation.Caller
import SmallC.Proofs.Allocation.Sharing
import SmallC.Proofs.Generation.Elements
import SmallC.Proofs.Generation.Embedding
import SmallC.Proofs.Generation.Scaling
import SmallC.Proofs.Generation.Dividing
import SmallC.Proofs.Generation.Computing
import SmallC.Proofs.Generation.Arriving
import SmallC.Proofs.Generation.Branching
import SmallC.Proofs.Generation.Looping
import SmallC.Proofs.Generation.Compiling
import SmallC.Proofs.Program.Preserving
import SmallC.Proofs.Program.Agreeing
import SmallC.Proofs.Program.Dangling
import SmallC.Proofs.Program.Resolution
import SmallC.Proofs.Program.BoundedRuns
import SmallC.Proofs.Machine.Decoding
import SmallC.Proofs.Assembly.Listings
import SmallC.Proofs.Allocation.Overlap
import SmallC.Proofs.Allocation.Surroundings
import SmallC.Proofs.Allocation.LinkedOrder
import SmallC.Proofs.Scopes.Liveness
import SmallC.Proofs.Source.Separators
import SmallC.Proofs.Allocation.Yielding
import SmallC.Proofs.Allocation.Pinning
import SmallC.Proofs.Allocation.Releasing
import SmallC.Proofs.Generation.Lowering
import SmallC.Proofs.Source.Places
import SmallC.Proofs.Assembly.Integers
import SmallC.Proofs.Generation.Synthesizing
import SmallC.Proofs.Parsing.Progress
