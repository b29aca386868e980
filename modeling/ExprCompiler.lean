import ExprCompiler.Binary.Format
import ExprCompiler.Code.BranchPlan
import ExprCompiler.Code.Chunk
import ExprCompiler.Code.Constant
import ExprCompiler.Code.Directive
import ExprCompiler.Code.Emission
import ExprCompiler.Code.Fragment
import ExprCompiler.Code.Layout
import ExprCompiler.Code.NumericOps
import ExprCompiler.Code.OpCode
import ExprCompiler.Code.Walk
import ExprCompiler.Compile
import ExprCompiler.Context
import ExprCompiler.Conversion.Basic
import ExprCompiler.Conversion.Cast
import ExprCompiler.Conversion.Implicit
import ExprCompiler.Conversion.Reference
import ExprCompiler.Decimal.Shortest
import ExprCompiler.Decimal.Style
import ExprCompiler.Digest.Xxh64
import ExprCompiler.Error
import ExprCompiler.Event
import ExprCompiler.Host.Member
import ExprCompiler.Host.Registration
import ExprCompiler.Host.Registry
import ExprCompiler.Host.Table
import ExprCompiler.Host.TypeEntry
import ExprCompiler.HostId
import ExprCompiler.Literal
import ExprCompiler.Numeric.Kind
import ExprCompiler.Numeric.Promotion
import ExprCompiler.Operator
import ExprCompiler.Overload.Candidate
import ExprCompiler.Overload.Resolve
import ExprCompiler.Proofs.Binary.Rounding
import ExprCompiler.Proofs.Category.Execution
import ExprCompiler.Proofs.Category.Regions
import ExprCompiler.Proofs.Category.Signatures
import ExprCompiler.Proofs.Category.Soundness
import ExprCompiler.Proofs.Category.Typing
import ExprCompiler.Proofs.Code.Agreement
import ExprCompiler.Proofs.Code.Authors
import ExprCompiler.Proofs.Code.Blocks
import ExprCompiler.Proofs.Code.Bytes
import ExprCompiler.Proofs.Code.Coverage
import ExprCompiler.Proofs.Code.Encoding
import ExprCompiler.Proofs.Code.Exits
import ExprCompiler.Proofs.Code.Fragments
import ExprCompiler.Proofs.Code.Instruction
import ExprCompiler.Proofs.Code.Interning
import ExprCompiler.Proofs.Code.Jumps
import ExprCompiler.Proofs.Code.Labels
import ExprCompiler.Proofs.Code.Limits
import ExprCompiler.Proofs.Code.Lines
import ExprCompiler.Proofs.Code.Nodes
import ExprCompiler.Proofs.Code.Ownership
import ExprCompiler.Proofs.Code.Patching
import ExprCompiler.Proofs.Code.Placement
import ExprCompiler.Proofs.Code.Pool
import ExprCompiler.Proofs.Code.Readings
import ExprCompiler.Proofs.Code.Relaxation
import ExprCompiler.Proofs.Code.Temporaries
import ExprCompiler.Proofs.Code.Trial
import ExprCompiler.Proofs.Conversion.Circles
import ExprCompiler.Proofs.Conversion.Descent
import ExprCompiler.Proofs.Conversion.Downcasts
import ExprCompiler.Proofs.Conversion.Seals
import ExprCompiler.Proofs.Conversion.Upcasts
import ExprCompiler.Proofs.Host.Ancestors
import ExprCompiler.Proofs.Host.Bases
import ExprCompiler.Proofs.Host.Builtins
import ExprCompiler.Proofs.Host.Consistency
import ExprCompiler.Proofs.Host.Derivation
import ExprCompiler.Proofs.Host.Elements
import ExprCompiler.Proofs.Host.Growth
import ExprCompiler.Proofs.Host.Hierarchy
import ExprCompiler.Proofs.Host.Identities
import ExprCompiler.Proofs.Host.Interfaces
import ExprCompiler.Proofs.Host.Nearest
import ExprCompiler.Proofs.Host.Stability
import ExprCompiler.Proofs.Machine.Conversions
import ExprCompiler.Proofs.Machine.Correctness
import ExprCompiler.Proofs.Machine.Evaluation
import ExprCompiler.Proofs.Machine.Integers
import ExprCompiler.Proofs.Machine.Machine
import ExprCompiler.Proofs.Machine.Operations
import ExprCompiler.Proofs.Machine.Overflow
import ExprCompiler.Proofs.Machine.Powers
import ExprCompiler.Proofs.Machine.Running
import ExprCompiler.Proofs.Machine.Slots
import ExprCompiler.Proofs.Machine.Straight
import ExprCompiler.Proofs.Machine.Unchecked
import ExprCompiler.Proofs.Overload.Exact
import ExprCompiler.Proofs.Overload.Expansion
import ExprCompiler.Proofs.Overload.Forms
import ExprCompiler.Proofs.Overload.Operators
import ExprCompiler.Proofs.Overload.Resolution
import ExprCompiler.Proofs.Overload.Scores
import ExprCompiler.Proofs.Results
import ExprCompiler.Proofs.Tree.Calls
import ExprCompiler.Proofs.Tree.Candidates
import ExprCompiler.Proofs.Tree.Comparisons
import ExprCompiler.Proofs.Tree.Postfix
import ExprCompiler.Proofs.Tree.Roots
import ExprCompiler.Proofs.Tree.Rules
import ExprCompiler.Span
import ExprCompiler.Text
import ExprCompiler.Tree.Access
import ExprCompiler.Tree.Arithmetic
import ExprCompiler.Tree.Build
import ExprCompiler.Tree.Comparison
import ExprCompiler.Tree.Element
import ExprCompiler.Tree.Logical
import ExprCompiler.Tree.Membership
import ExprCompiler.Ty
