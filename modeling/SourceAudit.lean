import SourceAudit.Analyzer
import SourceAudit.Binary64
import SourceAudit.Binary64.Decimal
import SourceAudit.Binary64.Rounding
import SourceAudit.Binary64.Shortest
import SourceAudit.CommandLine
import SourceAudit.CommandLine.Arguments
import SourceAudit.CommandLine.Check
import SourceAudit.CommandLine.Failure
import SourceAudit.CommandLine.Flag
import SourceAudit.CommandLine.Listing
import SourceAudit.CommandLine.Template
import SourceAudit.Config
import SourceAudit.Config.Document
import SourceAudit.Config.Draft
import SourceAudit.Config.Error
import SourceAudit.Config.Source
import SourceAudit.Config.Validation
import SourceAudit.DartPackage
import SourceAudit.Datum
import SourceAudit.Directive
import SourceAudit.Discovery
import SourceAudit.Entries
import SourceAudit.Event
import SourceAudit.FilePattern
import SourceAudit.FileTree
import SourceAudit.Glob
import SourceAudit.IgnoreFiles
import SourceAudit.IgnorePattern
import SourceAudit.Json.Printer
import SourceAudit.Json.Reader
import SourceAudit.Json.Token
import SourceAudit.Language
import SourceAudit.LineCount
import SourceAudit.Main
import SourceAudit.Manifest
import SourceAudit.Path
import SourceAudit.Proofs.Answers
import SourceAudit.Proofs.AppendedFiles
import SourceAudit.Proofs.BackwardsThresholds
import SourceAudit.Proofs.BareNames
import SourceAudit.Proofs.Binary64.Exact
import SourceAudit.Proofs.Binary64.Monotone
import SourceAudit.Proofs.Binary64.Nearest
import SourceAudit.Proofs.Binary64.Tenths
import SourceAudit.Proofs.Binary64.TotalOrder
import SourceAudit.Proofs.Binary64.WholeText
import SourceAudit.Proofs.BlockFields
import SourceAudit.Proofs.BlockPlacement
import SourceAudit.Proofs.ByteOrder
import SourceAudit.Proofs.Calls
import SourceAudit.Proofs.CanonicalForm
import SourceAudit.Proofs.CanonicalReading
import SourceAudit.Proofs.CheckOutputs
import SourceAudit.Proofs.CommaSeparated
import SourceAudit.Proofs.CommentScan
import SourceAudit.Proofs.ConfigSpellings
import SourceAudit.Proofs.CountsByFile
import SourceAudit.Proofs.Course
import SourceAudit.Proofs.Crossings
import SourceAudit.Proofs.DartFiles
import SourceAudit.Proofs.Detours
import SourceAudit.Proofs.Diagnostics
import SourceAudit.Proofs.Dialects
import SourceAudit.Proofs.Documents
import SourceAudit.Proofs.Evictions
import SourceAudit.Proofs.ExcludePatterns
import SourceAudit.Proofs.FileLines
import SourceAudit.Proofs.FirstException
import SourceAudit.Proofs.FoldedPlaces
import SourceAudit.Proofs.FoundFiles
import SourceAudit.Proofs.FullLayout.ReadBack
import SourceAudit.Proofs.FullLayout.Reader
import SourceAudit.Proofs.Gitignore.Erased
import SourceAudit.Proofs.Gitignore.Rules
import SourceAudit.Proofs.Gitignore.Run
import SourceAudit.Proofs.Gitignore.Search
import SourceAudit.Proofs.Glob.Language
import SourceAudit.Proofs.Glob.Reading
import SourceAudit.Proofs.Glob.Search
import SourceAudit.Proofs.IdleExceptions
import SourceAudit.Proofs.ImportSpellings
import SourceAudit.Proofs.Isolation
import SourceAudit.Proofs.Json.Lexing
import SourceAudit.Proofs.Json.Numbers
import SourceAudit.Proofs.Json.Parsing
import SourceAudit.Proofs.Json.Printing
import SourceAudit.Proofs.LineEnds
import SourceAudit.Proofs.LineKinds
import SourceAudit.Proofs.LoadSteps
import SourceAudit.Proofs.LongerFiles
import SourceAudit.Proofs.Magnitudes
import SourceAudit.Proofs.ManifestNames
import SourceAudit.Proofs.NestedCaps
import SourceAudit.Proofs.Paths
import SourceAudit.Proofs.PlainPaths
import SourceAudit.Proofs.Preparation
import SourceAudit.Proofs.Projection
import SourceAudit.Proofs.Ranking
import SourceAudit.Proofs.Reachability
import SourceAudit.Proofs.Records
import SourceAudit.Proofs.RelativePaths
import SourceAudit.Proofs.ReportRoundTrip
import SourceAudit.Proofs.Respelled.Around
import SourceAudit.Proofs.Respelled.Below
import SourceAudit.Proofs.Respelled.Resolving
import SourceAudit.Proofs.Respelled.Rules
import SourceAudit.Proofs.Respelled.Run
import SourceAudit.Proofs.Respelled.Shown
import SourceAudit.Proofs.Respelled.Walk
import SourceAudit.Proofs.SearchRounds
import SourceAudit.Proofs.Selection
import SourceAudit.Proofs.Sessions
import SourceAudit.Proofs.SingleFile
import SourceAudit.Proofs.StatementPlaces
import SourceAudit.Proofs.Strictness
import SourceAudit.Proofs.TextLines
import SourceAudit.Proofs.Trimming
import SourceAudit.Proofs.Unreached
import SourceAudit.Proofs.UnusedPackages
import SourceAudit.Proofs.Validation
import SourceAudit.Proofs.Walk
import SourceAudit.Proofs.WrittenFiles
import SourceAudit.Proofs.ZeroThresholds
import SourceAudit.Reachable
import SourceAudit.Report
import SourceAudit.Report.Csv
import SourceAudit.Report.Document
import SourceAudit.Report.Layout
import SourceAudit.Rule
import SourceAudit.Rule.BuiltIn
import SourceAudit.Rule.FileLength
import SourceAudit.Rule.ImportBoundary
import SourceAudit.Rule.Metrics
import SourceAudit.Rule.PatternOption
import SourceAudit.Rule.Prepared
import SourceAudit.Rule.UnusedFiles
import SourceAudit.Rule.UnusedPackages
import SourceAudit.Run
import SourceAudit.Severity
import SourceAudit.Shape
import SourceAudit.Text.Blank
import SourceAudit.Text.Column
import SourceAudit.Text.Hex
import SourceAudit.Text.Invisible
import SourceAudit.Text.Lines
import SourceAudit.Text.Quoted
import SourceAudit.Text.Search
import SourceAudit.Threshold
import SourceAudit.Threshold.Resolver
import SourceAudit.Toml.Quoted
import SourceAudit.Toml.Reader
import SourceAudit.Toml.Scalar
import SourceAudit.Toml.Tree
import SourceAudit.Toml.Value
import SourceAudit.Violation
import SourceAudit.Yaml.Cursor
import SourceAudit.Yaml.Node
import SourceAudit.Yaml.Scalar
import SourceAudit.Yaml.Token
