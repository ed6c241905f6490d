import SwiftStyle.Command.Arguments
import SwiftStyle.Command.Indexing
import SwiftStyle.Command.Items
import SwiftStyle.Command.Linting
import SwiftStyle.Command.Listing
import SwiftStyle.Command.Outcome
import SwiftStyle.Command.Run
import SwiftStyle.Command.Template
import SwiftStyle.Config
import SwiftStyle.Config.Resolution
import SwiftStyle.Config.Toml
import SwiftStyle.Decimal.Nearest
import SwiftStyle.Faults
import SwiftStyle.Files.Discovery
import SwiftStyle.Files.ExcludePattern
import SwiftStyle.Files.IgnoreGlob
import SwiftStyle.Files.IgnoreRule
import SwiftStyle.Files.Replacement
import SwiftStyle.Files.Tree
import SwiftStyle.Index.Basic
import SwiftStyle.Index.Build
import SwiftStyle.Index.Json
import SwiftStyle.Index.Persist
import SwiftStyle.Json.Parser
import SwiftStyle.Json.Printer
import SwiftStyle.Json.Value
import SwiftStyle.Lint.Check
import SwiftStyle.Lint.Files
import SwiftStyle.Main
import SwiftStyle.Options
import SwiftStyle.Path
import SwiftStyle.Proofs.Files.Directories
import SwiftStyle.Proofs.Files.Discovery
import SwiftStyle.Proofs.Files.Links
import SwiftStyle.Proofs.Files.Replacement
import SwiftStyle.Proofs.Files.Tree
import SwiftStyle.Proofs.Files.Ways
import SwiftStyle.Proofs.Index.Batches
import SwiftStyle.Proofs.Index.Build
import SwiftStyle.Proofs.Index.Entries
import SwiftStyle.Proofs.Index.Incremental
import SwiftStyle.Proofs.Index.Persist
import SwiftStyle.Proofs.Index.Sessions
import SwiftStyle.Proofs.Index.Text
import SwiftStyle.Proofs.Index.Turns
import SwiftStyle.Proofs.Json.RoundTrip
import SwiftStyle.Proofs.Json.Tokens
import SwiftStyle.Proofs.Lint.Check
import SwiftStyle.Proofs.Lint.Files
import SwiftStyle.Proofs.Lists
import SwiftStyle.Proofs.Order
import SwiftStyle.Proofs.Paths
import SwiftStyle.Proofs.Rules.Places
import SwiftStyle.Proofs.Source.Structure
import SwiftStyle.Report
import SwiftStyle.Report.Json
import SwiftStyle.Report.Render
import SwiftStyle.Rule
import SwiftStyle.Rules.Catalog
import SwiftStyle.Rules.FileLength
import SwiftStyle.Rules.LineLength
import SwiftStyle.Rules.MultilineArguments
import SwiftStyle.Rules.TrailingNewline
import SwiftStyle.Rules.TrailingWhitespace
import SwiftStyle.Rules.TypeName
import SwiftStyle.Severity
import SwiftStyle.Source.Lines
import SwiftStyle.Source.Loading
import SwiftStyle.Source.Structure
import SwiftStyle.Source.Unit
import SwiftStyle.Suppression
import SwiftStyle.Swift.Lexer
import SwiftStyle.Swift.Nesting
import SwiftStyle.Swift.Parser
import SwiftStyle.Swift.Parser.Declaration
import SwiftStyle.Swift.Parser.Expression
import SwiftStyle.Swift.Parser.Group
import SwiftStyle.Swift.Structure
import SwiftStyle.Swift.SyntaxTree
import SwiftStyle.Swift.Token
import SwiftStyle.Swift.Vocabulary
import SwiftStyle.Text.Blank
import SwiftStyle.Text.Search
import SwiftStyle.Text.Suffixes
import SwiftStyle.Text.Uppercase
import SwiftStyle.Toml.Document
import SwiftStyle.Toml.Lexical
import SwiftStyle.Toml.Moments
import SwiftStyle.Toml.Numbers
import SwiftStyle.Toml.Parser
import SwiftStyle.Toml.Strings
import SwiftStyle.Toml.Value
import SwiftStyle.Violation
import SwiftStyle.Proofs.Files.Writable
import SwiftStyle.Proofs.Lint.Isolation
import SwiftStyle.Proofs.Lint.Registration
import SwiftStyle.Proofs.Source.Lines
import SwiftStyle.Proofs.Suppression
import SwiftStyle.Proofs.Source.LineEndings
import SwiftStyle.Proofs.Lint.LineEndings
import SwiftStyle.Proofs.Json.Strings
import SwiftStyle.Proofs.Json.Flat
import SwiftStyle.Proofs.Text.Bytes
import SwiftStyle.Proofs.Index.Format
import SwiftStyle.Proofs.Json.Reader
import SwiftStyle.Proofs.Report.RoundTrip
import SwiftStyle.Proofs.Lint.Distinct
import SwiftStyle.Proofs.Rules.Distinct
import SwiftStyle.Proofs.Swift.Extraction
import SwiftStyle.Proofs.Swift.Grammar
import SwiftStyle.Proofs.Swift.Layout
import SwiftStyle.Proofs.Swift.Nodes
import SwiftStyle.Proofs.Swift.Shape
import SwiftStyle.Proofs.Swift.Shaping
import SwiftStyle.Proofs.Swift.Tokens
import SwiftStyle.Swift.Grammar
import SwiftStyle.Swift.ParseTree
import SwiftStyle.Proofs.Rules.Bounds
import SwiftStyle.Proofs.Lint.Contents
import SwiftStyle.Proofs.Lint.Roots
import SwiftStyle.Proofs.Lint.Aliases
import SwiftStyle.Proofs.Rules.Selection
import SwiftStyle.Proofs.Command.Choice
import SwiftStyle.Proofs.Command.Linting
import SwiftStyle.Proofs.Command.Effect
import SwiftStyle.Proofs.Files.Upkeep
import SwiftStyle.Proofs.Files.Excluding
import SwiftStyle.Proofs.Lint.Newcomer
import SwiftStyle.Proofs.Command.Writing
import SwiftStyle.Proofs.Command.Template
import SwiftStyle.Proofs.Source.Positions
import SwiftStyle.Proofs.Lint.Silencing
import SwiftStyle.Proofs.Directive
import SwiftStyle.Proofs.Text.Words
import SwiftStyle.Proofs.Rules.Arguments
import SwiftStyle.Proofs.Source.Endings
import SwiftStyle.Proofs.Rules.FinalEndings
import SwiftStyle.Proofs.Rules.Links
import SwiftStyle.Proofs.Rules.Relaxing
import SwiftStyle.Proofs.Lint.Below
import SwiftStyle.Proofs.Report.Merging
import SwiftStyle.Proofs.Report.Printing
import SwiftStyle.Proofs.Config.Priority
import SwiftStyle.Proofs.Source.Table
import SwiftStyle.Proofs.Source.Preorder
import SwiftStyle.Proofs.Rules.TypeNames
import SwiftStyle.Proofs.Report.Sorting
