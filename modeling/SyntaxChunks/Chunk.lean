/-
# `Chunk` — one piece of a document

The id of a chunk is the digest of its path and its two offsets, joined by
double colons.  A chunk has no id if its path has no UTF-8 form, and then it
cannot be shown as an object.
-/
import SyntaxChunks.Json.Value
import SyntaxChunks.Lines
import SyntaxChunks.Sha256
import SyntaxChunks.Span

namespace SyntaxChunks

/-- How a chunk was found: by a syntax tree, by a window of lines, or in a way
of the caller's own. -/
inductive Strategy where
  | syntaxTree
  | lineWindow
  | other (name : String)
deriving DecidableEq, Repr

/-- The name of a strategy. -/
def Strategy.text : Strategy → String
  | .syntaxTree => "syntax"
  | .lineWindow => "fallback"
  | .other name => name

/-- A piece of a document with its text and where it lies. -/
structure Chunk where
  text : String
  language : Text
  startPoint : Point
  stopPoint : Point
  span : Span
  strategy : Strategy
  path : Text
deriving DecidableEq, Repr

namespace Chunk

/-- The number of bytes. -/
def size (c : Chunk) : Int :=
  c.span.length

/-- The text that tells the chunk from all others. -/
def idText (c : Chunk) : Text :=
  c.path ++ "::" ++ toString c.span.start ++ "::" ++ toString c.span.stop

/-- The digest of the text that tells the chunk from all others, if the text has
a UTF-8 form. -/
def id? (c : Chunk) : Option String :=
  c.idText.utf8?.map Sha256.hex

/-- A point as a list of its row and its column. -/
def pointJson (p : Point) : Json :=
  .arr [.int p.row, .int p.column]

/-- The chunk as an object, with its id. -/
def objectWith (c : Chunk) (id : String) : Json :=
  .obj [("id", .str id), ("path", .str c.path), ("language", .str c.language),
    ("strategy", .str c.strategy.text), ("start_bytes", .int c.span.start),
    ("end_bytes", .int c.span.stop), ("start_rc", pointJson c.startPoint),
    ("end_rc", pointJson c.stopPoint), ("chunk", .str c.text)]

/-- The chunk as an object, if it has an id. -/
def toJson? (c : Chunk) : Option Json :=
  c.id?.map c.objectWith

end Chunk

end SyntaxChunks
