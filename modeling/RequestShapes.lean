import RequestShapes.Command.Arguments
import RequestShapes.Command.Basic
import RequestShapes.Command.Run
import RequestShapes.Endpoint.Component
import RequestShapes.Endpoint.Marker
import RequestShapes.Endpoint.Module
import RequestShapes.Endpoint.Problem
import RequestShapes.Files.Change
import RequestShapes.Files.Content
import RequestShapes.Files.Path
import RequestShapes.Files.Tree
import RequestShapes.Generation
import RequestShapes.Identifier
import RequestShapes.Json.Basic
import RequestShapes.Json.Message
import RequestShapes.Json.Number
import RequestShapes.Json.Pretty
import RequestShapes.Json.Reader
import RequestShapes.Json.Scalar
import RequestShapes.Json.Relaxed
import RequestShapes.Json.Writer
import RequestShapes.Main
import RequestShapes.Notice
import RequestShapes.Number.Arithmetic
import RequestShapes.Number.Binary64
import RequestShapes.Number.FreeForm
import RequestShapes.Number.Integer
import RequestShapes.Number.Shortest
import RequestShapes.Request.Block
import RequestShapes.Request.Collection
import RequestShapes.Request.Document
import RequestShapes.Request.Entry
import RequestShapes.Request.Reader
import RequestShapes.Schema.Basic
import RequestShapes.Schema.Draft
import RequestShapes.Schema.Format
import RequestShapes.Schema.FreshName
import RequestShapes.Schema.Inference
import RequestShapes.Schema.Lifting
import RequestShapes.Schema.Merge
import RequestShapes.Schema.Reference
import RequestShapes.Settings
import RequestShapes.Table
import RequestShapes.Text.Base64
import RequestShapes.Text.Blank
import RequestShapes.Text.CodeUnit
import RequestShapes.Text.Letter
import RequestShapes.Text.Mark
import RequestShapes.Text.Numeral
import RequestShapes.Text.Range
import RequestShapes.Text.Search
import RequestShapes.Text.Symbol
import RequestShapes.Text.Upper
import RequestShapes.Text.Utf8
import RequestShapes.Text.Word
import RequestShapes.Yaml.Block
import RequestShapes.Yaml.Character
import RequestShapes.Yaml.Date
import RequestShapes.Yaml.Document
import RequestShapes.Yaml.Graph
import RequestShapes.Yaml.Layout
import RequestShapes.Yaml.Meaning
import RequestShapes.Yaml.Node
import RequestShapes.Yaml.Number
import RequestShapes.Yaml.Plain
import RequestShapes.Yaml.Quoted
import RequestShapes.Yaml.Tag
import RequestShapes.Yaml.Token
import RequestShapes.Yaml.Value
import RequestShapes.Zod.Expr
import RequestShapes.Zod.Source
import RequestShapes.Proofs.Schema.Retarget
import RequestShapes.Proofs.Schema.FreshName
import RequestShapes.Proofs.Schema.Lifts
import RequestShapes.Proofs.Schema.Origins
import RequestShapes.Proofs.Schema.Acyclic
import RequestShapes.Proofs.Schema.Regular
import RequestShapes.Proofs.Schema.Adoption
import RequestShapes.Proofs.Schema.Outstanding
import RequestShapes.Proofs.Schema.Termination
import RequestShapes.Proofs.Schema.Capture
import RequestShapes.Proofs.Schema.Acceptance
import RequestShapes.Proofs.Schema.Forms
import RequestShapes.Proofs.Schema.Inferring
import RequestShapes.Proofs.Schema.Layers
import RequestShapes.Proofs.Schema.Sharing
import RequestShapes.Proofs.Schema.Mixed
import RequestShapes.Proofs.Schema.Sample
import RequestShapes.Proofs.Schema.Sealed
import RequestShapes.Proofs.Schema.Restoring
import RequestShapes.Proofs.Schema.Evaluation
import RequestShapes.Proofs.Endpoint.Declaring
import RequestShapes.Proofs.Files.Writing
import RequestShapes.Proofs.Generation
import RequestShapes.Proofs.Schema.Shapes
import RequestShapes.Proofs.Schema.Summaries
import RequestShapes.Proofs.Schema.Summarizing
import RequestShapes.Proofs.Schema.Provenance
import RequestShapes.Proofs.Schema.Tracing
import RequestShapes.Proofs.Schema.Marking
import RequestShapes.Proofs.Endpoint.Resolving
import RequestShapes.Proofs.Schema.Naming
import RequestShapes.Proofs.Request.Reading
import RequestShapes.Proofs.Schema.Reaching
import RequestShapes.Proofs.Schema.Inlining
import RequestShapes.Proofs.Schema.AccessPaths
import RequestShapes.Proofs.Schema.PathNaming
import RequestShapes.Proofs.Request.Scanning
import RequestShapes.Proofs.Request.Blocks
import RequestShapes.Proofs.Request.Entries
import RequestShapes.Proofs.Request.Responses
import RequestShapes.Proofs.Request.Manuscript
import RequestShapes.Proofs.Endpoint.Naming
import RequestShapes.Proofs.Request.Isolation
import RequestShapes.Proofs.Json.Relaxed
import RequestShapes.Proofs.Request.Legibility
import RequestShapes.Proofs.Request.Samples
import RequestShapes.Proofs.Endpoint.Building
import RequestShapes.Proofs.Endpoint.Legality
import RequestShapes.Proofs.Endpoint.Secrecy
import RequestShapes.Proofs.Json.Quoted
import RequestShapes.Proofs.Number.Notation
import RequestShapes.Proofs.Json.Syntax
import RequestShapes.Proofs.Zod.Grammar
import RequestShapes.Proofs.Zod.Meaning
import RequestShapes.Proofs.Zod.Reading
import RequestShapes.Proofs.Endpoint.Rewriting
import RequestShapes.Proofs.Endpoint.Declarations
import RequestShapes.Proofs.Zod.Pieces
import RequestShapes.Proofs.Schema.Keys
import RequestShapes.Proofs.Endpoint.Misreading
import RequestShapes.Proofs.Endpoint.References
import RequestShapes.Proofs.Schema.Repeating
import RequestShapes.Proofs.Schema.Ending
import RequestShapes.Proofs.Files.Preparing
import RequestShapes.Proofs.Output
import RequestShapes.Proofs.Request.Collecting
import RequestShapes.Proofs.Command.Running
import RequestShapes.Proofs.Request.Dividing
import RequestShapes.Proofs.Schema.Positions
import RequestShapes.Proofs.Schema.Sorting
import RequestShapes.Proofs.Schema.Tidy
import RequestShapes.Proofs.Schema.Agreeing
import RequestShapes.Proofs.Schema.Blending
import RequestShapes.Proofs.Schema.Likeness
import RequestShapes.Proofs.Schema.Duplicates
import RequestShapes.Proofs.Schema.Reordering
import RequestShapes.Proofs.Schema.Regrouping
import RequestShapes.Proofs.Request.OneLine
import RequestShapes.Proofs.Identifier.Address
import RequestShapes.Proofs.Schema.Patterns
import RequestShapes.Proofs.Schema.WellFormed
