import AssetPipeline.Build.Compilation
import AssetPipeline.Build.Fault
import AssetPipeline.Build.Generation
import AssetPipeline.Build.Pattern
import AssetPipeline.Build.Regeneration
import AssetPipeline.CommandLine.Arguments
import AssetPipeline.CommandLine.Help
import AssetPipeline.CommandLine.Run
import AssetPipeline.Declaration
import AssetPipeline.Failure
import AssetPipeline.FileList
import AssetPipeline.Files.Fault
import AssetPipeline.Files.Listing
import AssetPipeline.Files.RawPath
import AssetPipeline.Files.Route
import AssetPipeline.Files.Tree
import AssetPipeline.Files.Workspace
import AssetPipeline.Glob.Parser
import AssetPipeline.Glob.Shape
import AssetPipeline.Glob.Token
import AssetPipeline.Graph
import AssetPipeline.Main
import AssetPipeline.Ninja.BuildFile
import AssetPipeline.Ninja.Text
import AssetPipeline.Number.Binary
import AssetPipeline.Number.Shortest
import AssetPipeline.Path.Basic
import AssetPipeline.Path.Lookup
import AssetPipeline.Proofs.Build.Cycles
import AssetPipeline.Proofs.Build.Defaults
import AssetPipeline.Proofs.Build.Executor
import AssetPipeline.Proofs.Build.Expansion
import AssetPipeline.Proofs.Build.FileList
import AssetPipeline.Proofs.Build.Generated
import AssetPipeline.Proofs.Build.Phases
import AssetPipeline.Proofs.Build.Refreshing
import AssetPipeline.Proofs.Build.Regenerating
import AssetPipeline.Proofs.Build.Resolving
import AssetPipeline.Proofs.Build.Steps
import AssetPipeline.Proofs.Build.Validation
import AssetPipeline.Proofs.CommandLine.Operands
import AssetPipeline.Proofs.Files.Walk
import AssetPipeline.Proofs.Files.RawPath
import AssetPipeline.Proofs.Graph.Session
import AssetPipeline.Proofs.Graph.WellFormed
import AssetPipeline.Proofs.Ninja.Command
import AssetPipeline.Proofs.Ninja.Continuation
import AssetPipeline.Proofs.Ninja.PathLists
import AssetPipeline.Proofs.Ninja.Reader
import AssetPipeline.Proofs.Ninja.RoundTrip
import AssetPipeline.Proofs.Outcome
import AssetPipeline.Proofs.Script.Cursor
import AssetPipeline.Proofs.Script.Declaring
import AssetPipeline.Proofs.Script.Grammar
import AssetPipeline.Proofs.Script.Handles
import AssetPipeline.Proofs.Script.Layout
import AssetPipeline.Proofs.Script.Parsing
import AssetPipeline.Proofs.Script.Progress
import AssetPipeline.Proofs.Script.Quoting
import AssetPipeline.Proofs.Script.Relocation
import AssetPipeline.Proofs.Script.Scanning
import AssetPipeline.Proofs.Script.Spacing
import AssetPipeline.Proofs.Script.Watching
import AssetPipeline.Proofs.Script.Writing
import AssetPipeline.Proofs.Shell.Words
import AssetPipeline.Proofs.Text
import AssetPipeline.Proofs.Utf8
import AssetPipeline.Script.Evaluation
import AssetPipeline.Script.Fault
import AssetPipeline.Script.Lexeme
import AssetPipeline.Script.Literal
import AssetPipeline.Script.Parser
import AssetPipeline.Script.Syntax
import AssetPipeline.Script.Token
import AssetPipeline.Script.Value
import AssetPipeline.Settings.Basic
import AssetPipeline.Settings.File
import AssetPipeline.Shell
import AssetPipeline.Text.Blank
import AssetPipeline.Text.Chars
import AssetPipeline.Text.Position
import AssetPipeline.Text.Quoted
import AssetPipeline.Text.Unprintable
import AssetPipeline.Text.Utf8
import AssetPipeline.Toml.Document
import AssetPipeline.Toml.Moment
import AssetPipeline.Toml.Scalars
import AssetPipeline.Toml.Strings
import AssetPipeline.Toml.Table
import AssetPipeline.Toml.Value
import AssetPipeline.Proofs.Build.Reordering
import AssetPipeline.Proofs.Script.CallOrder
import AssetPipeline.Proofs.Script.Height
import AssetPipeline.Proofs.Script.Language
import AssetPipeline.Proofs.Script.LongestMatch
import AssetPipeline.Proofs.CommandLine.Failing
import AssetPipeline.Proofs.Files.Lookup
import AssetPipeline.Proofs.Files.Entries
import AssetPipeline.Proofs.Files.Reaching
import AssetPipeline.Proofs.Files.Writing
import AssetPipeline.Proofs.Build.Growing
import AssetPipeline.Proofs.Build.Misreading
import AssetPipeline.Proofs.CommandLine.Repeating
import AssetPipeline.Proofs.Glob.Standing
import AssetPipeline.Proofs.Glob.Segments
import AssetPipeline.Proofs.Glob.Laying
import AssetPipeline.Proofs.Path.Segments
import AssetPipeline.Proofs.Files.Naming
import AssetPipeline.Proofs.Build.Inputs
import AssetPipeline.Proofs.Build.Hidden
import AssetPipeline.Proofs.Files.Making
import AssetPipeline.Proofs.Files.Appearing
import AssetPipeline.Proofs.Graph.Adding
import AssetPipeline.Proofs.Shell.Arguments
import AssetPipeline.Proofs.FileList.Settling
import AssetPipeline.Proofs.FileList.Tracking
import AssetPipeline.Proofs.Path.Parents
import AssetPipeline.Proofs.Path.Addresses
import AssetPipeline.Proofs.CommandLine.Roots
import AssetPipeline.Proofs.Build.Placing
import AssetPipeline.Proofs.Build.Malformed
import AssetPipeline.Proofs.Toml.Keys
import AssetPipeline.Proofs.Settings.Given
import AssetPipeline.Proofs.Script.Sums
import AssetPipeline.Proofs.Script.Pieces
import AssetPipeline.Proofs.Script.Places
import AssetPipeline.Proofs.Glob.OneByte
import AssetPipeline.Files.RawPath
