import MathMarkup.CommandLine.Convert
import MathMarkup.CommandLine.RoundTrip
import MathMarkup.Conversion.Canonical
import MathMarkup.Conversion.Case
import MathMarkup.Expr.Dump
import MathMarkup.Expr.Equality
import MathMarkup.Expr.Json
import MathMarkup.Expr.OfJson
import MathMarkup.Json.Reader
import MathMarkup.Main
import MathMarkup.Trace.Event
import MathMarkup.Trace.Log
import MathMarkup.Proofs.Grammar.Unfolding
import MathMarkup.Proofs.Text.Character
import MathMarkup.Proofs.Token.Junction
import MathMarkup.Proofs.Token.Partition
import MathMarkup.Proofs.Expr.Nodes
import MathMarkup.Proofs.Rereading.Legible
import MathMarkup.Proofs.Rereading.Regrouped
import MathMarkup.Proofs.Rereading.Literal
import MathMarkup.Proofs.Grammar.Resume
import MathMarkup.Proofs.Rereading.Slot
import MathMarkup.Proofs.Rereading.Operator
import MathMarkup.Proofs.Rereading.Argument
import MathMarkup.Proofs.Rereading.Keyword
import MathMarkup.Proofs.Rereading.Sized
import MathMarkup.Proofs.Rereading.Rows
import MathMarkup.Proofs.Rereading.Block
import MathMarkup.Proofs.Rereading.Reread
import MathMarkup.Proofs.Rereading.Whole
import MathMarkup.Proofs.Rereading.Text
import MathMarkup.Proofs.Rereading.Standard
import MathMarkup.Proofs.RoundTrip
import MathMarkup.Proofs.Rereading.Rewritten
import MathMarkup.Proofs.Rereading.Parsed
import MathMarkup.Proofs.Expr.Normal
import MathMarkup.Proofs.Grammar.Normal
import MathMarkup.Proofs.Translation
import MathMarkup.Proofs.Grammar.Parallel
import MathMarkup.Proofs.Grammar.Stop
import MathMarkup.Proofs.Expr.Occurrences
import MathMarkup.Proofs.Grammar.Tally
import MathMarkup.Proofs.Grammar.Conservation
import MathMarkup.Proofs.Grammar.Kept
import MathMarkup.Proofs.Grammar.Formed
import MathMarkup.Proofs.Shared.Parse
import MathMarkup.Proofs.Rereading.Steady
import MathMarkup.Proofs.Canonical
import MathMarkup.Proofs.Grammar.Progress
import MathMarkup.Proofs.Grammar.Fluent
import MathMarkup.Proofs.Fluency.Readable
import MathMarkup.Proofs.Fluency.Text
import MathMarkup.Proofs.Fluency.Keyword
import MathMarkup.Proofs.Fluency.Literal
import MathMarkup.Proofs.Fluency.Block
import MathMarkup.Proofs.Fluency.Node
import MathMarkup.Proofs.Fluency.Strict
import MathMarkup.Proofs.Grammar.Layout
import MathMarkup.Proofs.Expr.Dump
import MathMarkup.Proofs.Json.Written
import MathMarkup.Proofs.Json.Sorted
import MathMarkup.Proofs.Expr.Json
import MathMarkup.Proofs.Grammar.Nested
import MathMarkup.Proofs.Decimal.Nearest
import MathMarkup.Proofs.Json.Number
import MathMarkup.Proofs.Json.Compact
import MathMarkup.Proofs.Text.Plain
import MathMarkup.Proofs.Text.Half
import MathMarkup.Proofs.Json.Shown
import MathMarkup.Proofs.Files.Tree
import MathMarkup.Proofs.Files.Apart
import MathMarkup.Proofs.Trace.Session
import MathMarkup.Proofs.Trace.Safe
import MathMarkup.Proofs.Text.Line
import MathMarkup.Proofs.Expr.Line
import MathMarkup.Proofs.Grammar.Line
import MathMarkup.Proofs.CommandLine.Arguments
import MathMarkup.Proofs.CommandLine.Run
import MathMarkup.Proofs.CommandLine.Traced
import MathMarkup.Proofs.CommandLine.Batch
import MathMarkup.Proofs.Grammar.Depth
import MathMarkup.Proofs.Grammar.Seam
import MathMarkup.Proofs.Grammar.Locality
import MathMarkup.Proofs.Grammar.Cell
import MathMarkup.Proofs.Grammar.Grid
import MathMarkup.Proofs.Expr.Total
import MathMarkup.Proofs.Expr.Cells
import MathMarkup.Proofs.Grammar.Account
import MathMarkup.Proofs.Grammar.CellCount
import MathMarkup.Proofs.Grammar.Noted
import MathMarkup.Proofs.Grammar.Composition
import MathMarkup.Proofs.Rereading.Verbatim
import MathMarkup.Proofs.Rereading.Command
import MathMarkup.Proofs.Grammar.Places
import MathMarkup.Proofs.Grammar.Implied
import MathMarkup.Proofs.Expr.Shown
import MathMarkup.Proofs.Expr.Undecorated
import MathMarkup.Proofs.Grammar.Course
import MathMarkup.Proofs.Grammar.Continued
import MathMarkup.Proofs.Token.Gap
import MathMarkup.Proofs.Grammar.Bounds
import MathMarkup.Proofs.CommandLine.Output
import MathMarkup.Proofs.CommandLine.FailFast
