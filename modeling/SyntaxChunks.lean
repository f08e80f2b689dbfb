import SyntaxChunks.Bulk
import SyntaxChunks.Chunk
import SyntaxChunks.Chunking
import SyntaxChunks.Cli.Options
import SyntaxChunks.Cli.Run
import SyntaxChunks.Config
import SyntaxChunks.Contents
import SyntaxChunks.Document
import SyntaxChunks.Extension
import SyntaxChunks.Files
import SyntaxChunks.Json.Reader
import SyntaxChunks.Json.Value
import SyntaxChunks.Json.Writer
import SyntaxChunks.Lines
import SyntaxChunks.Log
import SyntaxChunks.Main
import SyntaxChunks.Number.Binary64
import SyntaxChunks.Number.Decimal
import SyntaxChunks.Number.Reading
import SyntaxChunks.Number.Rounding
import SyntaxChunks.Packing
import SyntaxChunks.Path
import SyntaxChunks.Pieces
import SyntaxChunks.Proofs.Accounting
import SyntaxChunks.Proofs.Boundaries
import SyntaxChunks.Proofs.Bulk
import SyntaxChunks.Proofs.Chunking
import SyntaxChunks.Proofs.CommandLine
import SyntaxChunks.Proofs.Coverage
import SyntaxChunks.Proofs.DecodedLines
import SyntaxChunks.Proofs.Except
import SyntaxChunks.Proofs.FirstFault
import SyntaxChunks.Proofs.Grammars
import SyntaxChunks.Proofs.Greedy
import SyntaxChunks.Proofs.Groups
import SyntaxChunks.Proofs.HardCuts
import SyntaxChunks.Proofs.Hints
import SyntaxChunks.Proofs.Identity
import SyntaxChunks.Proofs.Joining
import SyntaxChunks.Proofs.JsonText
import SyntaxChunks.Proofs.LeftmostJoin
import SyntaxChunks.Proofs.LinePartition
import SyntaxChunks.Proofs.Lines
import SyntaxChunks.Proofs.ListedExtensions
import SyntaxChunks.Proofs.LowerCase
import SyntaxChunks.Proofs.NearestFeed
import SyntaxChunks.Proofs.Numerals
import SyntaxChunks.Proofs.Overflow
import SyntaxChunks.Proofs.Overlap
import SyntaxChunks.Proofs.Overriding
import SyntaxChunks.Proofs.PackedSpans
import SyntaxChunks.Proofs.Packing
import SyntaxChunks.Proofs.Pieces
import SyntaxChunks.Proofs.Points
import SyntaxChunks.Proofs.Pruning
import SyntaxChunks.Proofs.Repair
import SyntaxChunks.Proofs.RoundTrip
import SyntaxChunks.Proofs.Rounding
import SyntaxChunks.Proofs.Rows
import SyntaxChunks.Proofs.Seams
import SyntaxChunks.Proofs.Selection
import SyntaxChunks.Proofs.SeveralLines
import SyntaxChunks.Proofs.SizeBound
import SyntaxChunks.Proofs.SummaryText
import SyntaxChunks.Proofs.Tables
import SyntaxChunks.Proofs.Texts
import SyntaxChunks.Proofs.Tiles
import SyntaxChunks.Proofs.Tree
import SyntaxChunks.Proofs.TreeRoute
import SyntaxChunks.Proofs.Utf8
import SyntaxChunks.Proofs.WindowTexts
import SyntaxChunks.Proofs.Windows
import SyntaxChunks.Proofs.Workers
import SyntaxChunks.Provider
import SyntaxChunks.Registry
import SyntaxChunks.Registry.Shipped
import SyntaxChunks.Registry.Table
import SyntaxChunks.Selection
import SyntaxChunks.Sha256
import SyntaxChunks.SingleLine
import SyntaxChunks.Span
import SyntaxChunks.Summary
import SyntaxChunks.Text.Blank
import SyntaxChunks.Text.CodePoint
import SyntaxChunks.Text.Digit
import SyntaxChunks.Text.Lower
import SyntaxChunks.Text.Printable
import SyntaxChunks.Text.Quoted
import SyntaxChunks.Text.Utf8
import SyntaxChunks.Tiling
import SyntaxChunks.Tree
import SyntaxChunks.Trimming
import SyntaxChunks.Windows
import SyntaxChunks.Workers
