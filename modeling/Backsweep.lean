import Backsweep.Cli.Command
import Backsweep.Cli.Folder
import Backsweep.Cli.Program
import Backsweep.Decimal.Notation
import Backsweep.Decimal.Shortest
import Backsweep.Diff.Activity
import Backsweep.Diff.Builtin
import Backsweep.Diff.Catalogue
import Backsweep.Diff.Error
import Backsweep.Diff.Event
import Backsweep.Diff.Forward
import Backsweep.Diff.Input
import Backsweep.Diff.Level
import Backsweep.Diff.Lowering
import Backsweep.Diff.Plan
import Backsweep.Diff.Pullback
import Backsweep.Diff.Reverse
import Backsweep.Diff.Rule
import Backsweep.Diff.SecondOrder
import Backsweep.Module.Basic
import Backsweep.Module.Calls
import Backsweep.Module.Optimize
import Backsweep.Run.Gradient
import Backsweep.Run.Graph
import Backsweep.Run.Machine
import Backsweep.Run.Operation
import Backsweep.Run.Scalar
import Backsweep.Run.Tapes
import Backsweep.Run.Value
import Backsweep.Syntax.Builder
import Backsweep.Syntax.Func
import Backsweep.Syntax.Names
import Backsweep.Syntax.Opcode
import Backsweep.Syntax.Printer
import Backsweep.Syntax.Reader
import Backsweep.Syntax.Token
import Backsweep.Syntax.Validity
import Backsweep.Text.Camel
import Backsweep.Text.Enumeration
import Backsweep.Text.Upper
import Backsweep.Main
import Backsweep.Proofs.Run.Execution
import Backsweep.Proofs.Run.Frame
import Backsweep.Proofs.Run.Operation
import Backsweep.Proofs.Run.Lockstep
import Backsweep.Proofs.Syntax.Scope
import Backsweep.Proofs.Syntax.Table
import Backsweep.Proofs.Syntax.Typing
import Backsweep.Proofs.Syntax.Validity
import Backsweep.Proofs.Diff.Activity
import Backsweep.Proofs.Diff.Fixpoint
import Backsweep.Proofs.Diff.Lowering
import Backsweep.Proofs.Diff.Classification
import Backsweep.Proofs.Diff.Verbatim
import Backsweep.Proofs.Diff.Shape
import Backsweep.Proofs.Diff.Replay
import Backsweep.Proofs.Diff.Tracking
import Backsweep.Proofs.Diff.Undo
import Backsweep.Proofs.Diff.Trail
import Backsweep.Proofs.Diff.Catalogue
import Backsweep.Proofs.Diff.Emission
import Backsweep.Proofs.Diff.ReverseCode
import Backsweep.Proofs.Run.Outcome
import Backsweep.Proofs.Diff.Rewind
import Backsweep.Proofs.Diff.Setting
import Backsweep.Proofs.Diff.Generation
import Backsweep.Proofs.Run.Whole
import Backsweep.Proofs.Diff.Discipline
import Backsweep.Proofs.Diff.Levels
import Backsweep.Proofs.Diff.Nested
import Backsweep.Proofs.Diff.Balance
import Backsweep.Proofs.Run.Lawful
import Backsweep.Proofs.Diff.Formula
import Backsweep.Proofs.Diff.Inlining
import Backsweep.Proofs.Diff.Registration
import Backsweep.Proofs.Diff.Partials
import Backsweep.Proofs.Run.Soundness
import Backsweep.Proofs.Run.Tangent
import Backsweep.Proofs.Run.Erasure
import Backsweep.Proofs.Run.Reachable
import Backsweep.Proofs.Run.Confinement
import Backsweep.Proofs.Run.Recording
import Backsweep.Proofs.Run.Reuse
import Backsweep.Proofs.Run.History
import Backsweep.Proofs.Run.Limit
import Backsweep.Proofs.Run.Accounting
import Backsweep.Proofs.Diff.Dependence
import Backsweep.Proofs.Diff.Influence
import Backsweep.Proofs.Diff.Pairing
import Backsweep.Proofs.Diff.Adjoint
import Backsweep.Proofs.Diff.Chain
import Backsweep.Proofs.Diff.Gradient
import Backsweep.Proofs.Diff.Derivative
import Backsweep.Proofs.Diff.Property
import Backsweep.Proofs.Diff.SecondDerivative
import Backsweep.Proofs.Diff.Formed
import Backsweep.Proofs.Diff.FormedSteps
import Backsweep.Proofs.Diff.FormedForward
import Backsweep.Proofs.Diff.RealCalls
import Backsweep.Proofs.Diff.Valid
import Backsweep.Proofs.Run.Coupling
import Backsweep.Proofs.Run.Dual
import Backsweep.Proofs.Run.ForwardMode
import Backsweep.Proofs.Module.Transfer
import Backsweep.Proofs.Module.DualGradient
import Backsweep.Proofs.Module.DualCalls
import Backsweep.Proofs.Module.Isolation
import Backsweep.Proofs.Syntax.Grammar
import Backsweep.Proofs.Syntax.Lexing
import Backsweep.Proofs.Syntax.Accepted
import Backsweep.Proofs.Syntax.Agreement
import Backsweep.Proofs.Syntax.Rereading
import Backsweep.Proofs.Syntax.RoundTrip
import Backsweep.Proofs.Syntax.FreshNames
import Backsweep.Proofs.Syntax.Renumbering
import Backsweep.Proofs.Syntax.Resolution
import Backsweep.Proofs.Run.Renaming
import Backsweep.Proofs.Module.Listing
import Backsweep.Proofs.Run.Holding
