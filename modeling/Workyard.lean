import Workyard.Command.Arguments
import Workyard.Command.Report
import Workyard.Command.Run
import Workyard.Decimal.Binary64
import Workyard.Decimal.Shortest
import Workyard.Diff.Middle
import Workyard.Diff.Script
import Workyard.Diff.Settled
import Workyard.Diff.Shortest
import Workyard.Diff.Unified
import Workyard.Disk.Basic
import Workyard.Disk.Fault
import Workyard.Disk.Tree
import Workyard.Disk.Work
import Workyard.Json.Basic
import Workyard.Json.Printer
import Workyard.Json.Reader
import Workyard.Json.Record
import Workyard.Log
import Workyard.Main
import Workyard.Migration.Apply
import Workyard.Migration.Error
import Workyard.Migration.Flag
import Workyard.Migration.Journal
import Workyard.Migration.Plan
import Workyard.Migration.Planning
import Workyard.Migration.Preview
import Workyard.Migration.Run
import Workyard.Options.Cooking
import Workyard.Options.Error
import Workyard.Options.Literal
import Workyard.Options.Marker
import Workyard.Options.Number
import Workyard.Options.Rebase
import Workyard.Path.FilePath
import Workyard.Path.Fragment
import Workyard.Project.Basic
import Workyard.Project.Display
import Workyard.Project.Error
import Workyard.Project.Grouping
import Workyard.Project.Reader
import Workyard.Proofs.Decimal.Exact
import Workyard.Proofs.Decimal.Rounding
import Workyard.Proofs.Decimal.Shortest
import Workyard.Proofs.Diff.Patching
import Workyard.Proofs.Diff.Settling
import Workyard.Proofs.Disk.Directories
import Workyard.Proofs.Disk.Moves
import Workyard.Proofs.Disk.Place
import Workyard.Proofs.Disk.View
import Workyard.Proofs.Disk.Walk
import Workyard.Proofs.Json.Fields
import Workyard.Proofs.Json.InTurn
import Workyard.Proofs.Json.Lines
import Workyard.Proofs.Json.Members
import Workyard.Proofs.Json.Numbers
import Workyard.Proofs.Json.Numerals
import Workyard.Proofs.Json.Paths
import Workyard.Proofs.Json.ReadBack
import Workyard.Proofs.Json.Records
import Workyard.Proofs.Json.Significands
import Workyard.Proofs.Json.Spelling
import Workyard.Proofs.Json.Strings
import Workyard.Proofs.Json.Tokens
import Workyard.Proofs.Migration.Accounts
import Workyard.Proofs.Migration.Commit
import Workyard.Proofs.Migration.Completion
import Workyard.Proofs.Migration.Configs
import Workyard.Proofs.Migration.Failures
import Workyard.Proofs.Migration.Filtering
import Workyard.Proofs.Migration.Flagging
import Workyard.Proofs.Migration.Forwarding
import Workyard.Proofs.Migration.Keeping
import Workyard.Proofs.Migration.Laying
import Workyard.Proofs.Migration.Operation
import Workyard.Proofs.Migration.Planned
import Workyard.Proofs.Migration.Previews
import Workyard.Proofs.Migration.ProjectFile
import Workyard.Proofs.Migration.Reloading
import Workyard.Proofs.Migration.Restoration
import Workyard.Proofs.Migration.RollBack
import Workyard.Proofs.Migration.SecondRun
import Workyard.Proofs.Migration.Sharing
import Workyard.Proofs.Migration.Staging
import Workyard.Proofs.Migration.TakingEffect
import Workyard.Proofs.Migration.Temporary
import Workyard.Proofs.Migration.Verdicts
import Workyard.Proofs.Options.CodeUnits
import Workyard.Proofs.Options.Completeness
import Workyard.Proofs.Options.Continuations
import Workyard.Proofs.Options.Denotation
import Workyard.Proofs.Options.Forms
import Workyard.Proofs.Options.Integers
import Workyard.Proofs.Options.Keys
import Workyard.Proofs.Options.Leaves
import Workyard.Proofs.Options.LineFeeds
import Workyard.Proofs.Options.Markers
import Workyard.Proofs.Options.Numerals
import Workyard.Proofs.Options.Offences
import Workyard.Proofs.Options.Offsets
import Workyard.Proofs.Options.Parentheses
import Workyard.Proofs.Options.Phrases
import Workyard.Proofs.Options.Quotations
import Workyard.Proofs.Options.Quoted
import Workyard.Proofs.Options.ReadBack
import Workyard.Proofs.Options.Readings
import Workyard.Proofs.Options.Rebasing
import Workyard.Proofs.Options.Scalars
import Workyard.Proofs.Options.Sentences
import Workyard.Proofs.Options.Silence
import Workyard.Proofs.Options.Soundness
import Workyard.Proofs.Options.Strings
import Workyard.Proofs.Options.Tokens
import Workyard.Proofs.Options.Trivia
import Workyard.Proofs.Path.Canonical
import Workyard.Proofs.Path.Components
import Workyard.Proofs.Path.Fragments
import Workyard.Proofs.Path.Joining
import Workyard.Proofs.Path.Order
import Workyard.Proofs.Path.Segments
import Workyard.Proofs.Project.Display
import Workyard.Proofs.Project.Grouping
import Workyard.Proofs.Project.Labels
import Workyard.Proofs.Project.Loads
import Workyard.Proofs.Project.Numbers
import Workyard.Proofs.Project.Written
import Workyard.Proofs.Script.Fronts
import Workyard.Proofs.Script.Growing
import Workyard.Proofs.Script.Growth
import Workyard.Proofs.Script.Leads
import Workyard.Proofs.Script.LineFeeds
import Workyard.Proofs.Script.Lines
import Workyard.Proofs.Script.Numerals
import Workyard.Proofs.Script.Places
import Workyard.Proofs.Script.Reading
import Workyard.Proofs.Script.Shape
import Workyard.Proofs.Script.Spacing
import Workyard.Proofs.Script.Standalone
import Workyard.Proofs.Script.TwinReading
import Workyard.Proofs.Script.Twins
import Workyard.Proofs.Text.BlankLines
import Workyard.Proofs.Text.Blemish
import Workyard.Proofs.Text.Bytes
import Workyard.Proofs.Text.Kept
import Workyard.Proofs.Text.Recurrence
import Workyard.Proofs.Text.Settled
import Workyard.Proofs.Text.LineEnds
import Workyard.Proofs.Text.Lines
import Workyard.Proofs.Text.Tidying
import Workyard.Proofs.Webpack.KeptArgument
import Workyard.Proofs.Webpack.LegacyName
import Workyard.Proofs.Webpack.Overrides
import Workyard.Proofs.Webpack.Quiet
import Workyard.Proofs.Webpack.Standard
import Workyard.Proofs.Workspace.Discovery
import Workyard.Proofs.Workspace.Loading
import Workyard.Proofs.Workspace.Sources
import Workyard.Proofs.Workspace.Spelling
import Workyard.Script.Draft
import Workyard.Script.Grammar
import Workyard.Script.Lexeme
import Workyard.Script.Pattern
import Workyard.Script.Tree
import Workyard.Settings
import Workyard.Template.Basic
import Workyard.Template.Collection
import Workyard.Template.Lexeme
import Workyard.Template.Reader
import Workyard.Text.Blank
import Workyard.Text.Columns
import Workyard.Text.Lowercase
import Workyard.Text.Offset
import Workyard.Text.Quoted
import Workyard.Text.Separated
import Workyard.Text.Table
import Workyard.Text.Tidy
import Workyard.Webpack.Context
import Workyard.Webpack.Renderer
import Workyard.Webpack.Standard
import Workyard.Workspace
import Workyard.Yaml.Basic
import Workyard.Yaml.Reader
import Workyard.Yaml.Scalar
