/-
# `Summary` — what a run on many files came to

One entry for each given path, in order: how many chunks the file has, and with
them if they are asked for, or why it could not be read.
-/
import SyntaxChunks.Bulk

namespace SyntaxChunks

/-- The entry of one path. -/
inductive SummaryEntry where
  | failed (path : Text) (message : String)
  | chunked (path : Text) (chunks : List Chunk)
deriving DecidableEq, Repr

/-- The entries of a run, and whether their chunks are shown. -/
structure Summary where
  entries : List SummaryEntry
  showsChunks : Bool
deriving DecidableEq, Repr

namespace SummaryEntry

/-- The entry of a report. -/
def of (r : FileReport) : SummaryEntry :=
  match r.result with
  | .chunked chunks => .chunked r.path chunks
  | .unreadable message => .failed r.path message

/-- Is it the entry of a file that could not be read? -/
def isFailed : SummaryEntry → Bool
  | .failed .. => true
  | .chunked .. => false

/-- The number of chunks of the entry. -/
def count : SummaryEntry → Nat
  | .failed .. => 0
  | .chunked _ chunks => chunks.length

/-- What the entry of a file says of its chunks as a whole.  The language and the
strategy of a file are those of its first chunk. -/
def headMembers (path : Text) (chunks : List Chunk) : List (Text × Json) :=
  let ofFirst := fun f : Chunk → Text => chunks.head?.elim Json.null fun c => .str (f c)
  [("path", .str path), ("language", ofFirst Chunk.language),
    ("strategy", ofFirst fun c => c.strategy.text), ("chunks", .int chunks.length)]

/-- The entry as an object, if its chunks need not be shown or all have ids. -/
def toJson? (showsChunks : Bool) : SummaryEntry → Option Json
  | .failed path message => some (.obj [("path", .str path), ("error", .str message)])
  | .chunked path chunks =>
    if showsChunks then do
      let items ← chunks.mapM Chunk.toJson?
      return .obj (headMembers path chunks ++ [(Text.ofString "items", .arr items)])
    else some (.obj (headMembers path chunks))

end SummaryEntry

namespace Summary

/-- The summary of the reports on some paths. -/
def of (reports : List FileReport) (showsChunks : Bool) : Summary :=
  ⟨reports.map SummaryEntry.of, showsChunks⟩

/-- The number of files that could not be read. -/
def failed (s : Summary) : Nat :=
  s.entries.countP SummaryEntry.isFailed

/-- The number of files that were chunked. -/
def processed (s : Summary) : Nat :=
  s.entries.length - s.failed

/-- The number of all chunks. -/
def total (s : Summary) : Nat :=
  (s.entries.map SummaryEntry.count).foldr (· + ·) 0

/-- The summary as an object, with its entries. -/
def objectWith (s : Summary) (entries : List Json) : Json :=
  .obj [("files", .arr entries), ("processed_files", .int s.processed),
    ("failed_files", .int s.failed), ("total_chunks", .int s.total)]

/-- The summary as an object, if all its entries can be shown. -/
def toJson? (s : Summary) : Option Json :=
  (s.entries.mapM (SummaryEntry.toJson? s.showsChunks)).map s.objectWith

end Summary

end SyntaxChunks
