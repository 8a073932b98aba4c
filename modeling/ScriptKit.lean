import ScriptKit.Arena.Basic
import ScriptKit.Arena.Normal
import ScriptKit.Arena.Shape
import ScriptKit.Calendar
import ScriptKit.Digest.Sha256
import ScriptKit.Evaluation.Block
import ScriptKit.Evaluation.Builtin
import ScriptKit.Evaluation.Call
import ScriptKit.Evaluation.Evaluate
import ScriptKit.Evaluation.Event
import ScriptKit.Evaluation.Machine
import ScriptKit.Evaluation.Module
import ScriptKit.FileSystem
import ScriptKit.Grammar.Builder
import ScriptKit.Grammar.Parse
import ScriptKit.Grammar.Production
import ScriptKit.Grammar.Reading
import ScriptKit.Location
import ScriptKit.Log
import ScriptKit.Main
import ScriptKit.NameTable
import ScriptKit.Number.Binary
import ScriptKit.Number.Decimal
import ScriptKit.Number.Integer
import ScriptKit.Number.Power
import ScriptKit.Number.Reader
import ScriptKit.Number.Scattered
import ScriptKit.Number.Text
import ScriptKit.Package.Checkout
import ScriptKit.Package.Checksum
import ScriptKit.Package.Install
import ScriptKit.Package.Lockfile
import ScriptKit.Package.Manifest
import ScriptKit.Package.ManifestFile
import ScriptKit.Package.Name
import ScriptKit.Package.Resolver
import ScriptKit.Path
import ScriptKit.Program
import ScriptKit.Style
import ScriptKit.Text.Base64
import ScriptKit.Text.Basic
import ScriptKit.Text.Printable
import ScriptKit.Text.Quoted
import ScriptKit.Text.Width
import ScriptKit.Token.Basic
import ScriptKit.Token.Lexer
import ScriptKit.Token.Literal
import ScriptKit.Toml.Document
import ScriptKit.Toml.Value
import ScriptKit.Tool.Command
import ScriptKit.Tool.Console
import ScriptKit.Tool.Options
import ScriptKit.Tool.Run
import ScriptKit.Tool.Settings
import ScriptKit.Tree.Basic
import ScriptKit.Tree.Kind
import ScriptKit.Tree.Listing
import ScriptKit.Value.Basic
import ScriptKit.Value.Equality
import ScriptKit.Value.Fault
import ScriptKit.Value.Index
import ScriptKit.Value.Operator
import ScriptKit.Value.Scope
import ScriptKit.Value.Text
import ScriptKit.Yaml.Codec
import ScriptKit.Yaml.Compose
import ScriptKit.Yaml.Cursor
import ScriptKit.Yaml.Decode
import ScriptKit.Yaml.Node
import ScriptKit.Yaml.Render
import ScriptKit.Yaml.Scalar
import ScriptKit.Yaml.Tag
import ScriptKit.Yaml.Token
import ScriptKit.Proofs.Grammar.Termination
import ScriptKit.Proofs.Arena.Holds
import ScriptKit.Proofs.Grammar.Frame
import ScriptKit.Proofs.Grammar.Agreement
import ScriptKit.Proofs.Grammar.Recording
import ScriptKit.Proofs.Grammar.Intact
import ScriptKit.Proofs.Grammar.Meets
import ScriptKit.Proofs.Grammar.FirstToken
import ScriptKit.Proofs.Grammar.Outcomes
import ScriptKit.Proofs.Grammar.Lookahead
import ScriptKit.Proofs.Grammar.Expressions
import ScriptKit.Proofs.Grammar.Statements
import ScriptKit.Proofs.Grammar.PlainReading
import ScriptKit.Proofs.Grammar.Lexemes
import ScriptKit.Proofs.Grammar.Blanks
import ScriptKit.Proofs.Grammar.Sharing
import ScriptKit.Proofs.Grammar.Unread
import ScriptKit.Proofs.Token.Viable
import ScriptKit.Proofs.Token.Munch
import ScriptKit.Proofs.Token.Scan
import ScriptKit.Proofs.Grammar.RawTree
import ScriptKit.Proofs.Tree.Structured
import ScriptKit.Proofs.Tree.Translation
import ScriptKit.Proofs.Grammar.Meaning
import ScriptKit.Proofs.Program.Normal
import ScriptKit.Proofs.Program.Shapes
import ScriptKit.Proofs.Program.Lines
import ScriptKit.Proofs.Tree.Lines
import ScriptKit.Proofs.Grammar.Reads
import ScriptKit.Proofs.Grammar.Operators
import ScriptKit.Proofs.Tree.Printing
import ScriptKit.Proofs.Token.Words
import ScriptKit.Proofs.Grammar.Printed
import ScriptKit.Proofs.Grammar.PrintedTrees
import ScriptKit.Proofs.Grammar.PrintedReading
import ScriptKit.Proofs.Program.RoundTrip
import ScriptKit.Proofs.Number.Comparison
import ScriptKit.Proofs.Number.Rounding
import ScriptKit.Proofs.Value.Equality
import ScriptKit.Proofs.Value.Cells
import ScriptKit.Proofs.Value.Store
import ScriptKit.Proofs.Value.Checks
import ScriptKit.Proofs.Value.Names
import ScriptKit.Proofs.Evaluation.Watched
import ScriptKit.Proofs.Evaluation.Conduct
import ScriptKit.Proofs.Evaluation.Blocks
import ScriptKit.Proofs.Evaluation.Calls
import ScriptKit.Proofs.Evaluation.Runs
import ScriptKit.Proofs.Evaluation.Objects
import ScriptKit.Proofs.Evaluation.Dispatch
import ScriptKit.Proofs.Evaluation.Told
import ScriptKit.Proofs.Evaluation.Telling
import ScriptKit.Proofs.Evaluation.Works
import ScriptKit.Proofs.Evaluation.Law
import ScriptKit.Proofs.Evaluation.Lawful
import ScriptKit.Proofs.Evaluation.Modular
import ScriptKit.Proofs.Evaluation.Scoping
import ScriptKit.Proofs.Evaluation.Nesting
import ScriptKit.Proofs.Evaluation.Sessions
import ScriptKit.Proofs.Evaluation.Requires
import ScriptKit.Proofs.Evaluation.Located
import ScriptKit.Proofs.Evaluation.Indexing
import ScriptKit.Proofs.Arena.Ways
import ScriptKit.Proofs.Arena.Rewiring
import ScriptKit.Proofs.Program.Settled
import ScriptKit.Proofs.Text.Basic
import ScriptKit.Proofs.Yaml.Decoded
import ScriptKit.Proofs.FileSystem.Paths
import ScriptKit.Proofs.FileSystem.Places
import ScriptKit.Proofs.FileSystem.Directories
import ScriptKit.Proofs.FileSystem.Within
import ScriptKit.Proofs.FileSystem.Cleaned
import ScriptKit.Proofs.FileSystem.Written
import ScriptKit.Proofs.Package.Names
import ScriptKit.Proofs.Package.Locked
import ScriptKit.Proofs.Package.Fetched
import ScriptKit.Proofs.Package.Installed
import ScriptKit.Proofs.Package.Repeated
import ScriptKit.Proofs.Package.Edited
import ScriptKit.Proofs.Package.Stored
import ScriptKit.Proofs.Package.Checkouts
import ScriptKit.Proofs.Package.Contents
import ScriptKit.Proofs.FileSystem.Canonical
import ScriptKit.Proofs.Package.Resolved
import ScriptKit.Proofs.Arena.Ending
import ScriptKit.Proofs.Evaluation.Agreeing
import ScriptKit.Proofs.Evaluation.Skipped
import ScriptKit.Proofs.Evaluation.Keys
import ScriptKit.Proofs.Number.Numeral
import ScriptKit.Proofs.Text.Quoted
import ScriptKit.Proofs.Token.Quotation
import ScriptKit.Proofs.Value.Printing
import ScriptKit.Proofs.Value.Unambiguous
import ScriptKit.Proofs.Evaluation.Recorded
import ScriptKit.Proofs.Package.Nearest
import ScriptKit.Proofs.Yaml.Fields
import ScriptKit.Proofs.Package.Declared
