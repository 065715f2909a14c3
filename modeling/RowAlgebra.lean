import RowAlgebra.CommandResult
import RowAlgebra.Expr.Algebra
import RowAlgebra.Expr.Drawing
import RowAlgebra.Expr.Graph
import RowAlgebra.Forest.CrossValidation
import RowAlgebra.Frame
import RowAlgebra.Handle.StandardBlocks
import RowAlgebra.Json.Exact.Matrix
import RowAlgebra.Json.Options
import RowAlgebra.Log
import RowAlgebra.Workspace
import RowAlgebra.Proofs.Ending
import RowAlgebra.Proofs.Together
import RowAlgebra.Proofs.Expr.Admission
import RowAlgebra.Proofs.Expr.Nodes
import RowAlgebra.Proofs.Expr.Sameness
import RowAlgebra.Proofs.Expr.Undefined
import RowAlgebra.Proofs.Expr.Uses
import RowAlgebra.Proofs.Key.Value
import RowAlgebra.Proofs.Tag.Source
import RowAlgebra.Proofs.Cell.Exact
import RowAlgebra.Proofs.Plan.NormalForm
import RowAlgebra.Proofs.Plan.CleanForm
import RowAlgebra.Proofs.Plan.Optimized
import RowAlgebra.Proofs.Plan.Stranded
import RowAlgebra.Proofs.Plan.Executable
import RowAlgebra.Proofs.Plan.KeyTypes
import RowAlgebra.Proofs.Plan.Meaning
import RowAlgebra.Proofs.Plan.Tags
import RowAlgebra.Proofs.Plan.Metadata
import RowAlgebra.Proofs.Plan.Twins
import RowAlgebra.Proofs.Plan.Congruence
import RowAlgebra.Proofs.Exec.Run
import RowAlgebra.Proofs.Exec.Failures
import RowAlgebra.Proofs.Exec.Layout
import RowAlgebra.Proofs.Exec.Rows
import RowAlgebra.Proofs.Exec.Shapes
import RowAlgebra.Proofs.Exec.Positions
import RowAlgebra.Proofs.Exec.Pairing
import RowAlgebra.Proofs.Exec.PlainRows
import RowAlgebra.Proofs.Exec.RowLocal
import RowAlgebra.Proofs.Exec.Repartition
import RowAlgebra.Proofs.Exec.Slices
import RowAlgebra.Proofs.Keyed.Matrix
import RowAlgebra.Proofs.Keyed.Schema
import RowAlgebra.Proofs.Keyed.Rows
import RowAlgebra.Proofs.Keyed.Grids
import RowAlgebra.Proofs.Keyed.Products
import RowAlgebra.Proofs.Keyed.Elementwise
import RowAlgebra.Proofs.Keyed.Blocks
import RowAlgebra.Proofs.Keyed.Execution
import RowAlgebra.Proofs.Keyed.Tabulated
import RowAlgebra.Proofs.Keyed.Meaning
import RowAlgebra.Proofs.Keyed.NonZeros
import RowAlgebra.Proofs.Keyed.MissingRows
import RowAlgebra.Proofs.Keyed.DoubleTranspositions
import RowAlgebra.Proofs.Keyed.OuterJoin
import RowAlgebra.Proofs.Manager.Outcome
import RowAlgebra.Proofs.Manager.Run
import RowAlgebra.Proofs.Manager.Tags
import RowAlgebra.Proofs.Manager.Shapes
import RowAlgebra.Proofs.Manager.Results
import RowAlgebra.Proofs.Manager.Replacement
import RowAlgebra.Proofs.Manager.Repartition
import RowAlgebra.Proofs.Manager.NonZeros
import RowAlgebra.Proofs.Manager.Distribution
import RowAlgebra.Proofs.Forest.Loading
import RowAlgebra.Proofs.Forest.Routing
import RowAlgebra.Proofs.Forest.Validation
import RowAlgebra.Proofs.Forest.Predictions
import RowAlgebra.Proofs.Workspace.Scene
import RowAlgebra.Proofs.Workspace.Effects
import RowAlgebra.Proofs.Workspace.Isolation
import RowAlgebra.Proofs.Workspace.Memory
import RowAlgebra.Proofs.Workspace.Failure
import RowAlgebra.Proofs.Workspace.Registry
import RowAlgebra.Proofs.Workspace.Lifecycle
import RowAlgebra.Proofs.Manager.Cleanup
import RowAlgebra.Proofs.Workspace.CallTrace
import RowAlgebra.Proofs.Plan.Identity
import RowAlgebra.Proofs.Expr.Network
import RowAlgebra.Proofs.Expr.Drawing
import RowAlgebra.Proofs.Expr.Views
import RowAlgebra.Proofs.Workspace.Obstacles
import RowAlgebra.Proofs.Workspace.Closing
import RowAlgebra.Proofs.Json.Refusals
import RowAlgebra.Proofs.Text.Lines
import RowAlgebra.Proofs.Session.Home
import RowAlgebra.Proofs.Session.Classpath
import RowAlgebra.Proofs.Json.Equality
import RowAlgebra.Proofs.Json.Proper
import RowAlgebra.Proofs.Json.Strings
import RowAlgebra.Proofs.Json.Numerals
import RowAlgebra.Proofs.Json.ReadBack
import RowAlgebra.Proofs.Json.Written
import RowAlgebra.Proofs.Forest.Codec
import RowAlgebra.Proofs.Forest.Storing
import RowAlgebra.Proofs.Forest.Splitting
