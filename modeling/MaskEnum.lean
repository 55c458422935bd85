import MaskEnum.Binary64
import MaskEnum.CommandLine
import MaskEnum.Compile
import MaskEnum.Config
import MaskEnum.Declaration
import MaskEnum.Declaration.Blocks
import MaskEnum.Declaration.Collisions
import MaskEnum.Declaration.Parser
import MaskEnum.Description
import MaskEnum.Docs
import MaskEnum.Docs.Literal
import MaskEnum.Error
import MaskEnum.Externals
import MaskEnum.Files
import MaskEnum.Files.Tree
import MaskEnum.Formula
import MaskEnum.Generated
import MaskEnum.Generated.Program
import MaskEnum.Generated.Text
import MaskEnum.Graph
import MaskEnum.Initializer
import MaskEnum.Initializer.Parser
import MaskEnum.IntType
import MaskEnum.IntType.Bitwise
import MaskEnum.Loaded
import MaskEnum.Machine
import MaskEnum.Machine.Step
import MaskEnum.Main
import MaskEnum.Operator
import MaskEnum.Outline
import MaskEnum.Outline.Json
import MaskEnum.Outline.Toml
import MaskEnum.Path
import MaskEnum.Proofs.Declaration.Completeness
import MaskEnum.Proofs.Declaration.Grammar
import MaskEnum.Proofs.Declaration.Names
import MaskEnum.Proofs.Declaration.Refusal
import MaskEnum.Proofs.Declaration.Soundness
import MaskEnum.Proofs.Formula
import MaskEnum.Proofs.Graph.OfEdges
import MaskEnum.Proofs.Graph.TopologicalOrder
import MaskEnum.Proofs.Graph.Waiting
import MaskEnum.Proofs.Initializer.Grammar
import MaskEnum.Proofs.IntType.Range
import MaskEnum.Proofs.IntType.Word
import MaskEnum.Proofs.Machine.WordArithmetic
import MaskEnum.Proofs.Resolution.FixedPoint
import MaskEnum.Proofs.Resolution.Folding
import MaskEnum.Proofs.Resolution.Locality
import MaskEnum.Proofs.Resolution.Range
import MaskEnum.Proofs.Resolution.References
import MaskEnum.Proofs.Resolution.Settling
import MaskEnum.Proofs.Resolution.Steps
import MaskEnum.Proofs.Result
import MaskEnum.Proofs.Table
import MaskEnum.Proofs.Token.Numeral
import MaskEnum.Registry
import MaskEnum.Reserved
import MaskEnum.Resolution
import MaskEnum.Resolution.Unit
import MaskEnum.Session
import MaskEnum.Surface
import MaskEnum.Table
import MaskEnum.Text.Blank
import MaskEnum.Text.Integer
import MaskEnum.Text.Printable
import MaskEnum.Text.Quoted
import MaskEnum.Text.StringLiteral
import MaskEnum.Token
import MaskEnum.Token.Lexer
import MaskEnum.Toml.Document
import MaskEnum.Toml.Parser
import MaskEnum.Toml.Scalar
import MaskEnum.Toml.Value
import MaskEnum.Proofs.Text.Blank
import MaskEnum.Proofs.Token.Identifier
import MaskEnum.Proofs.Declaration.Identifiers
import MaskEnum.Proofs.Declaration.Admission
import MaskEnum.Proofs.Resolution.Invariant
import MaskEnum.Proofs.Resolution.Ordinals
import MaskEnum.Proofs.Generated.Unit
import MaskEnum.Proofs.Loaded.Settings
import MaskEnum.Proofs.Loaded.Values
import MaskEnum.Proofs.Loaded.Paths
import MaskEnum.Proofs.Loaded.Agreement
import MaskEnum.Proofs.Text.Escaped
import MaskEnum.Proofs.Generated.Notes
import MaskEnum.Proofs.Generated.Null
import MaskEnum.Proofs.Generated.Metadata
import MaskEnum.Proofs.Generated.Program
import MaskEnum.Proofs.Loaded.Outcomes
import MaskEnum.Proofs.Machine.Run
import MaskEnum.Proofs.Resolution.Solution
import MaskEnum.Proofs.Resolution.Selection
import MaskEnum.Proofs.Generated.BareNames
import MaskEnum.Proofs.Resolution.Dependence
import MaskEnum.Proofs.Resolution.ExactSymbols
import MaskEnum.Proofs.Token.Gaps
import MaskEnum.Proofs.Token.Writing
import MaskEnum.Proofs.Generated.Documentation
import MaskEnum.Proofs.Verdict
import MaskEnum.Proofs.Generated.Failure
import MaskEnum.Proofs.Token.Tiling
import MaskEnum.Proofs.Generated.Layout
import MaskEnum.Proofs.Generated.Inert
import MaskEnum.Proofs.Generated.Scopes
import MaskEnum.Proofs.Operator.Overflow
import MaskEnum.Proofs.Machine.CheckedArithmetic
import MaskEnum.Proofs.Initializer.Written
import MaskEnum.Proofs.Machine.InPlace
import MaskEnum.Proofs.Resolution.ExactValues
import MaskEnum.Proofs.Token.Digits
import MaskEnum.Proofs.Declaration.Invocations
import MaskEnum.Proofs.Docs
import MaskEnum.Proofs.Text.Quoted
import MaskEnum.Proofs.Declaration.Nesting
import MaskEnum.Proofs.Token.Lines
import MaskEnum.Proofs.Generated.Wrapped
import MaskEnum.Proofs.Graph.Cycles
import MaskEnum.Proofs.Graph.Turns
import MaskEnum.Proofs.Text.Docstring
import MaskEnum.Proofs.Token.Outcome
import MaskEnum.Proofs.Loaded.Registry
import MaskEnum.Proofs.Config.Sections
import MaskEnum.Proofs.Config.Constants
import MaskEnum.Proofs.Path
import MaskEnum.Proofs.Files.Tree
import MaskEnum.Proofs.Session.Run
import MaskEnum.Proofs.Session.Compile
import MaskEnum.Proofs.Session.Build
import MaskEnum.Proofs.Graph.Depth
import MaskEnum.Proofs.Graph.Report
import MaskEnum.Proofs.Token.Places
import MaskEnum.Proofs.Declaration.Diagnostics
import MaskEnum.Proofs.Text.Telling
import MaskEnum.Proofs.Outline.Scalars
import MaskEnum.Proofs.Outline.Telling
import MaskEnum.Proofs.Outline.Json
import MaskEnum.Proofs.Outline.Toml
import MaskEnum.Proofs.Description
