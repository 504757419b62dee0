import ScriptMinifier.Batch.Report
import ScriptMinifier.Batch.Run
import ScriptMinifier.Byte
import ScriptMinifier.CommandLine.Arguments
import ScriptMinifier.CommandLine.Run
import ScriptMinifier.Fault
import ScriptMinifier.Json.Options
import ScriptMinifier.Json.Reader
import ScriptMinifier.Json.Value
import ScriptMinifier.Lexer
import ScriptMinifier.Literal
import ScriptMinifier.Log
import ScriptMinifier.Main
import ScriptMinifier.Minify
import ScriptMinifier.Options
import ScriptMinifier.Path
import ScriptMinifier.Position
import ScriptMinifier.Proofs.Accounting
import ScriptMinifier.Proofs.Breaks
import ScriptMinifier.Proofs.Characters
import ScriptMinifier.Proofs.CommentSpace
import ScriptMinifier.Proofs.Concatenation
import ScriptMinifier.Proofs.Decimals
import ScriptMinifier.Proofs.Edges
import ScriptMinifier.Proofs.Exchange
import ScriptMinifier.Proofs.ExpressionScan
import ScriptMinifier.Proofs.ExpressionTokens
import ScriptMinifier.Proofs.Expressions
import ScriptMinifier.Proofs.Extents
import ScriptMinifier.Proofs.FixedPoint
import ScriptMinifier.Proofs.Grammar
import ScriptMinifier.Proofs.Layout
import ScriptMinifier.Proofs.LineBreaks
import ScriptMinifier.Proofs.LineEndings
import ScriptMinifier.Proofs.Munch
import ScriptMinifier.Proofs.Operands
import ScriptMinifier.Proofs.Originals
import ScriptMinifier.Proofs.Paths
import ScriptMinifier.Proofs.Reads
import ScriptMinifier.Proofs.Rerun
import ScriptMinifier.Proofs.Rescan
import ScriptMinifier.Proofs.Restore
import ScriptMinifier.Proofs.RoundTrip
import ScriptMinifier.Proofs.Sources
import ScriptMinifier.Proofs.Step
import ScriptMinifier.Proofs.Stream.Buffer
import ScriptMinifier.Proofs.Stream.Cursor
import ScriptMinifier.Proofs.Stream.Faults
import ScriptMinifier.Proofs.Stream.Feed
import ScriptMinifier.Proofs.Stream.Lengths
import ScriptMinifier.Proofs.Stream.Schedule
import ScriptMinifier.Proofs.Tokens
import ScriptMinifier.Proofs.Tree
import ScriptMinifier.Proofs.Twin
import ScriptMinifier.Proofs.Unclosed
import ScriptMinifier.Proofs.Utf8
import ScriptMinifier.Proofs.Ways
import ScriptMinifier.Scan
import ScriptMinifier.Separator
import ScriptMinifier.Stream.Reader
import ScriptMinifier.Stream.Run
import ScriptMinifier.Stream.Sink
import ScriptMinifier.Stream.Source
import ScriptMinifier.Stream.Writer
import ScriptMinifier.Terminal
import ScriptMinifier.Text
import ScriptMinifier.Tree.Basic
import ScriptMinifier.Tree.Build
import ScriptMinifier.Tree.Listing
import ScriptMinifier.Tree.Scope
import ScriptMinifier.Tree.Walk
import ScriptMinifier.Twin
import ScriptMinifier.Word
import ScriptMinifier.Proofs.Stream.Indexed
import ScriptMinifier.Proofs.Stream.Record
import ScriptMinifier.Proofs.Stream.Refinement
import ScriptMinifier.Proofs.Stream.Protocol
import ScriptMinifier.Proofs.Discovery
