import Trellis.Decimal.Layout
import Trellis.Decimal.Nearest
import Trellis.Decimal.Shortest
import Trellis.Document.Basic
import Trellis.Document.Grammar
import Trellis.Document.Token
import Trellis.Entries
import Trellis.Execution.Call
import Trellis.Execution.Collection
import Trellis.Execution.Error
import Trellis.Execution.Plan
import Trellis.Execution.Planning
import Trellis.Execution.Request
import Trellis.Execution.Response
import Trellis.Execution.Run
import Trellis.Execution.Slots
import Trellis.Execution.Timetable
import Trellis.Execution.WorkerPool
import Trellis.FieldError
import Trellis.Host.Decoding
import Trellis.Host.Description
import Trellis.Host.Type
import Trellis.Host.Universe
import Trellis.Host.Value
import Trellis.Json.Basic
import Trellis.Json.Number
import Trellis.Json.Reader
import Trellis.Json.Refusal
import Trellis.Json.Writer
import Trellis.Literal.Basic
import Trellis.Literal.Json
import Trellis.Literal.Weight
import Trellis.Resolver.Action
import Trellis.Resolver.Basic
import Trellis.Resolver.Context
import Trellis.Resolver.Parameters
import Trellis.Scalar.Basic
import Trellis.Scalar.Json
import Trellis.ScalarType
import Trellis.Schema.Basic
import Trellis.Schema.Configuration
import Trellis.Schema.Declaration
import Trellis.Schema.Error
import Trellis.Schema.Graph
import Trellis.Schema.Registration
import Trellis.Studio.Given
import Trellis.Studio.Properties
import Trellis.Studio.Roots
import Trellis.Studio.Routine
import Trellis.Studio.Scalars
import Trellis.Studio.Show
import Trellis.Studio.Transformations
import Trellis.Studio.TypeExpression
import Trellis.Studio.Types
import Trellis.Text.Blank
import Trellis.Text.Escape
import Trellis.Text.Number
import Trellis.Text.Split
import Trellis.TypeLiteral
import Trellis.Uuid
import Trellis.Value.Basic
import Trellis.Value.Json
import Trellis.Value.Path
import Trellis.Value.Text
import Trellis.Width
import Trellis.Proofs.Itemwise
import Trellis.Proofs.Execution.Schedule
import Trellis.Proofs.Execution.Orderly
import Trellis.Proofs.Execution.Settlement
import Trellis.Proofs.Execution.Carrying
import Trellis.Proofs.Execution.Steadiness
import Trellis.Proofs.Execution.Collecting
import Trellis.Proofs.Execution.Territory
import Trellis.Proofs.Execution.Laying
import Trellis.Proofs.Execution.ErrorOrder
import Trellis.Proofs.Execution.ScheduleIndependence
import Trellis.Proofs.Execution.Assembling
import Trellis.Proofs.Execution.Place
import Trellis.Proofs.Execution.Completion
import Trellis.Proofs.Execution.NullPropagation
import Trellis.Proofs.Execution.Conformance
import Trellis.Proofs.Execution.Invocations
import Trellis.Proofs.Execution.Turns
import Trellis.Proofs.Schema.Describing
import Trellis.Proofs.Schema.Running
import Trellis.Proofs.Schema.Soundness
import Trellis.Proofs.Schema.InputWalks
import Trellis.Proofs.Schema.ObjectWalks
import Trellis.Proofs.Schema.RootWalks
import Trellis.Proofs.Execution.Reporting
import Trellis.Proofs.Schema.Closedness
import Trellis.Proofs.Literal.Resolution
import Trellis.Proofs.Execution.Mirroring
import Trellis.Proofs.Execution.Substitution
import Trellis.Proofs.Execution.Inlining
import Trellis.Proofs.Execution.Gist
import Trellis.Proofs.Execution.FragmentInlining
import Trellis.Proofs.Schema.Naming
import Trellis.Proofs.Schema.Translation
import Trellis.Proofs.Schema.InputTranslation
import Trellis.Proofs.Schema.ObjectTranslation
import Trellis.Proofs.Schema.RootTranslation
import Trellis.Proofs.Schema.Settling
import Trellis.Proofs.Schema.Reordering
import Trellis.Proofs.Schema.BuilderCalls
import Trellis.Proofs.Schema.DeclarationOrder
import Trellis.Proofs.Schema.Reachability
import Trellis.Proofs.Schema.Exploration
import Trellis.Proofs.Schema.ReachableTypes
import Trellis.Proofs.Typing.Values
import Trellis.Proofs.Typing.Arguments
import Trellis.Proofs.Typing.Functions
import Trellis.Proofs.Typing.Declarations
import Trellis.Proofs.Typing.Graphs
import Trellis.Proofs.Typing.Completion
import Trellis.Proofs.Typing.Execution
import Trellis.Proofs.Typing.Soundness
import Trellis.Proofs.Typing.Literals
import Trellis.Proofs.Typing.Published
import Trellis.Proofs.Typing.Acceptance
import Trellis.Proofs.Typing.Restoring
import Trellis.Proofs.Schema.Lookups
import Trellis.Proofs.Schema.Noting
import Trellis.Proofs.Schema.Termination
import Trellis.Proofs.Execution.Deepening
import Trellis.Proofs.Execution.Nesting
import Trellis.Proofs.Execution.Levels
import Trellis.Proofs.Execution.Ending
import Trellis.Proofs.Pointers.Stripping
import Trellis.Proofs.Pointers.Agreement
import Trellis.Proofs.Pointers.Walks
import Trellis.Proofs.Pointers.Programs
import Trellis.Proofs.Pointers.Execution
import Trellis.Proofs.Pointers.Transparency
import Trellis.Proofs.Execution.Answering
import Trellis.Proofs.Execution.Occupancy
import Trellis.Proofs.Literal.Written
import Trellis.Proofs.Schema.UnionDispatch
import Trellis.Proofs.Execution.Pruning
import Trellis.Proofs.Execution.Expansion
import Trellis.Proofs.Execution.Grouping
import Trellis.Proofs.Execution.Merging
import Trellis.Proofs.Execution.Unfolding
import Trellis.Proofs.Execution.Siblings
import Trellis.Proofs.Schema.Keeping
import Trellis.Proofs.Execution.Binding
import Trellis.Proofs.Execution.Invoking
import Trellis.Proofs.Schema.Tables
import Trellis.Proofs.Schema.Ledgers
import Trellis.Proofs.Schema.TableWalks
import Trellis.Proofs.Schema.PropertyTables
import Trellis.Proofs.Schema.SharedArguments
import Trellis.Proofs.Execution.Composing
import Trellis.Proofs.Schema.Coinciding
import Trellis.Proofs.Schema.Retyping
import Trellis.Proofs.Execution.Refusals
import Trellis.Proofs.Typing.Exchange
import Trellis.Proofs.Literal.Normal
import Trellis.Proofs.Value.Objects
import Trellis.Proofs.Value.Addresses
import Trellis.Proofs.Literal.References
import Trellis.Proofs.Document.Scanning
import Trellis.Proofs.Document.Bounds
import Trellis.Proofs.Document.Following
import Trellis.Proofs.Document.TypeLiterals
