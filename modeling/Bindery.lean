import Bindery.Binding.Declaration
import Bindery.Binding.Draft
import Bindery.Binding.Member
import Bindery.Binding.Reference
import Bindery.Config.Basic
import Bindery.Config.FileSystem
import Bindery.Config.Load
import Bindery.Config.Parse
import Bindery.Config.Path
import Bindery.Decorator
import Bindery.Diagnostic
import Bindery.Digest.Sha256
import Bindery.Graph.Closure
import Bindery.Graph.Components
import Bindery.Graph.Emission
import Bindery.Graph.Imports
import Bindery.Json.Datum
import Bindery.Json.Double
import Bindery.Json.Number
import Bindery.Json.Quoted
import Bindery.Json.Reader
import Bindery.Json.Record
import Bindery.Json.Relaxed
import Bindery.Json.Value
import Bindery.LogFormat
import Bindery.Options
import Bindery.Project.Basic
import Bindery.Project.Query
import Bindery.Proofs.Store.Arena
import Bindery.Proofs.Store.Names
import Bindery.Proofs.Store.Roll
import Bindery.Proofs.Symbol.Bare
import Bindery.Proofs.Table
import Bindery.Roster
import Bindery.Scope.Basic
import Bindery.Scope.Builtins
import Bindery.Store.Arena
import Bindery.Store.Basic
import Bindery.Store.Names
import Bindery.Symbol.Basic
import Bindery.Symbol.ClassInfo
import Bindery.Symbol.Render
import Bindery.Table
import Bindery.Text.Blank
import Bindery.Text.Edit
import Bindery.Text.Order
import Bindery.Text.Search
import Bindery.Text.Slice
import Bindery.Text.Span
import Bindery.Text.Splice
import Bindery.Text.Template
import Bindery.Text.Word
import Bindery.Tree.Basic
import Bindery.Tree.Form
import Bindery.Tree.Label
import Bindery.Tree.Sketch
import Bindery.TypeShape
import Bindery.Proofs.Binding.Mentioned
import Bindery.Proofs.Binding.Resolution
import Bindery.Proofs.Binding.Padded
import Bindery.Proofs.Binding.Declared
import Bindery.Proofs.Project.Supply
import Bindery.Proofs.Project.Session
import Bindery.Proofs.Project.Unit
import Bindery.Proofs.Project.Run
import Bindery.Proofs.Binding.Heritage
import Bindery.Proofs.Project.Consistency
import Bindery.Proofs.Project.Waiting
import Bindery.Proofs.Symbol.Ahead
import Bindery.Proofs.Binding.Supplied
import Bindery.Proofs.Project.Twin
import Bindery.Proofs.Project.Tidy
import Bindery.Proofs.Project.Late
import Bindery.Proofs.Scope.Builtins
import Bindery.Proofs.Symbol.Late
import Bindery.Proofs.Binding.Bound
import Bindery.Proofs.Project.Past
import Bindery.Proofs.Project.Exclusion
import Bindery.Proofs.Graph.Emission
import Bindery.Proofs.Project.EmissionGraph
import Bindery.Proofs.Project.BaseOrder
import Bindery.Proofs.Roster
import Bindery.Proofs.Graph.Imports
import Bindery.Proofs.Project.Undo
import Bindery.Proofs.Text.Edit
import Bindery.Proofs.Symbol.Render
import Bindery.Proofs.Project.TypeParameters
import Bindery.Proofs.Binding.Classification
import Bindery.Proofs.Binding.Strength
import Bindery.Proofs.Binding.Reports
import Bindery.Proofs.Project.Continuation
import Bindery.Proofs.Binding.Lineage
import Bindery.Proofs.Project.LateHeritage
import Bindery.Proofs.Project.Told
import Bindery.Proofs.Project.Frame
import Bindery.Proofs.Graph.Affected
import Bindery.Proofs.Project.Invalidation
import Bindery.Proofs.Symbol.Orphan
import Bindery.Proofs.Binding.Alongside
import Bindery.Proofs.Project.Batch
import Bindery.Proofs.Project.Rebinding
import Bindery.Proofs.Binding.Beside
import Bindery.Proofs.Symbol.Reordered
import Bindery.Proofs.Project.Informed
import Bindery.Proofs.Project.Standing
import Bindery.Proofs.Project.BindOrder
import Bindery.Proofs.Binding.Awaited
import Bindery.Proofs.Project.Declares
import Bindery.Proofs.Binding.Library
import Bindery.Proofs.Project.Library
import Bindery.Proofs.Binding.Access
import Bindery.Proofs.Project.Access
import Bindery.Proofs.Tree.Reading
import Bindery.Proofs.Tree.Walk
import Bindery.Proofs.Project.StatementOrder
import Bindery.Proofs.Text.Splice
import Bindery.Proofs.Text.Substitution
import Bindery.Proofs.Text.Verdicts
import Bindery.Proofs.Graph.Built
import Bindery.Proofs.Graph.Order
import Bindery.Proofs.Graph.Components
import Bindery.Proofs.Graph.Knots
import Bindery.Proofs.Symbol.Pieces
import Bindery.Proofs.Text.Overlaps
import Bindery.Proofs.Store.Holders
import Bindery.Proofs.Store.Issue
import Bindery.Proofs.Graph.Mirrored
import Bindery.Proofs.Project.Issued
import Bindery.Proofs.Project.Ancestry
import Bindery.Proofs.TypeShape.Sites
import Bindery.Proofs.TypeShape.References
import Bindery.Proofs.TypeShape.NameSpans
import Bindery.Proofs.TypeShape.Coverage
import Bindery.Proofs.Text.Template
import Bindery.Proofs.Config.Inheritance
import Bindery.Proofs.Tree.Linking
import Bindery.Proofs.Json.Token
import Bindery.Proofs.Json.Relaxed
import Bindery.Proofs.Text.Search
