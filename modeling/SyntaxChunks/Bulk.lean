/-
# `Bulk` — many files at once

Each file is chunked on its own.  The reports come in in any order, are kept by
path, and are read back in the order of the given paths, so neither the number
of workers nor their speed is seen in the result.  A file that cannot be read
is reported and stops no other one; a text that is no path stops all.

* `reportFile` — the report on one file.
* `chunkPathsIn` — the reports when the files are done in a given order.
* `chunkPaths` — the reports.
* `chunkGiven`, `chunkPathsGiven` — the same for callers who may leave the
  registry to the program, which looks for one only if there is work to do.
-/
import SyntaxChunks.Chunking
import SyntaxChunks.Registry.Shipped

namespace SyntaxChunks

/-- What stops a run. -/
inductive Failure where
  | read (cause : ReadError)
  | table (cause : TableError)
  | offset (cause : OffsetError)
  | notEncodable
deriving DecidableEq, Repr

/-- The text of a failure. -/
def Failure.message : Failure → Text
  | .read cause => cause.message
  | .table cause => cause.message
  | .offset cause => cause.message
  | .notEncodable => "a text to be written has no encoded form"

/-- The chunks of a file, or why it could not be read. -/
inductive FileResult where
  | chunked (chunks : List Chunk)
  | unreadable (message : String)
deriving DecidableEq, Repr

/-- The result for a path and what there is to say about it. -/
structure FileReport where
  path : Text
  result : FileResult
  lines : List Log.Line
deriving DecidableEq, Repr

/-! ## One file -/

/-- The route of a file's document, and its chunks. -/
def chunkFile (grammars : Grammars) (files : FileSystem) (registry : Registry) (config : Config)
    (path : Text) : Except Failure (Document × Routing × List Chunk) := do
  let d ← (Document.ofFile files path).mapError .read
  let r := route grammars registry config d
  return (d, r, ← (d.chunksOf r.route).mapError .offset)

/-- The report on a file. -/
def reportFile (grammars : Grammars) (files : FileSystem) (registry : Registry) (config : Config)
    (path : Text) : Except Failure FileReport :=
  match chunkFile grammars files registry config path with
  | .ok (d, r, chunks) =>
    let done : Log.Line :=
      ⟨.debug, .program, "File " ++ path ++ s!" produced {chunks.length} chunks"⟩
    .ok ⟨path, .chunked chunks, r.lines config d ++ [done]⟩
  | .error (.read (.refused fault place)) =>
    let message := (ReadError.refused fault place).message
    let failed : Log.Line := ⟨.error, .program, "Failed reading " ++ path ++ ": " ++ message⟩
    .ok ⟨path, .unreadable message, [failed]⟩
  | .error e => .error e

/-! ## Many files -/

/-- The reports by path, behind those that are kept already; a report takes the
place of an earlier one on its path. -/
def collect (kept : List FileReport) : List FileReport → List FileReport
  | [] => kept
  | r :: rest => collect (r :: kept.filter fun k => k.path != r.path) rest

/-- The reports on some paths, in their order. -/
def readBack (kept : List FileReport) (paths : List Text) : List FileReport :=
  paths.filterMap fun p => kept.find? fun r => r.path == p

/-- The reports on some paths when they are done in the order of the given
positions. -/
def chunkPathsIn (order : List Nat) (report : Text → Except Failure FileReport)
    (paths : List Text) : Except Failure (List FileReport) := do
  let finished ← (order.filterMap fun i => paths[i]?).mapM report
  return readBack (collect [] finished) paths

/-- The reports on some paths. -/
def chunkPaths (grammars : Grammars) (files : FileSystem) (registry : Registry) (config : Config)
    (paths : List Text) : Except Failure (List FileReport) :=
  chunkPathsIn (List.range paths.length) (reportFile grammars files registry config) paths

/-! ## Callers without a registry -/

/-- The registry that a caller gives, or else the one in use. -/
def registryFor (given : Option Registry) (inUse : Except TableError Registry) :
    Except Failure Registry :=
  given.elim (inUse.mapError .table) .ok

/-- The route of a document and its chunks.  A document without bytes asks for no
registry. -/
def chunkGiven (grammars : Grammars) (given : Option Registry) (inUse : Except TableError Registry)
    (config : Config) (d : Document) : Except Failure (Routing × List Chunk) :=
  if d.contents.isEmpty then .ok (⟨[], .nothing⟩, [])
  else do
    let r := route grammars (← registryFor given inUse) config d
    return (r, ← (d.chunksOf r.route).mapError .offset)

/-- The reports on some paths.  Without a path no registry is asked for. -/
def chunkPathsGiven (grammars : Grammars) (files : FileSystem) (given : Option Registry)
    (inUse : Except TableError Registry) (config : Config) (paths : List Text) :
    Except Failure (List FileReport) :=
  if paths.isEmpty then .ok []
  else do chunkPaths grammars files (← registryFor given inUse) config paths

end SyntaxChunks
