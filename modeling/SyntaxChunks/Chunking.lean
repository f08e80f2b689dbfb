/-
# `Chunking` — a document cut into chunks

Selection decides by which route a document is cut.  With a tree, its packed
spans are cut further if that is asked for, made contiguous, and single lines
joined to their neighbours.  Without one, or when something fails on the way,
the document is cut into windows of lines.  A document without bytes has no
chunks.

* `route` — the attempts on a document and the way it is cut.
* `chunkDocument` — its chunks.
* `Routing.lines` — what there is to say about it.
-/
import SyntaxChunks.Chunk
import SyntaxChunks.Config
import SyntaxChunks.Packing
import SyntaxChunks.Pieces
import SyntaxChunks.Selection
import SyntaxChunks.SingleLine
import SyntaxChunks.Tiling

namespace SyntaxChunks

/-- The spans of a tree: packed, cut further if asked for, made contiguous,
and with single lines joined. -/
def syntaxSpans (config : Config) (index : LineIndex) (contents : Contents) (root : Node) :
    Except SplitError (List Span) := do
  let packed := pack config.budget root
  let cut ←
    if config.splitLeaves then splitOversized contents index config.budget packed else .ok packed
  return joinSingleLines contents (tile cut 0 contents.size)

/-- Why a document is cut into windows of lines. -/
inductive Detour where
  | noLanguage
  | crashed (crash : Crash)
  | notCut (root : Node) (cause : SplitError)
deriving Repr

/-- How a document is cut. -/
inductive Route where
  | nothing
  | tree (root : Node) (language : Text) (spans : List Span)
  | windows (reason : Detour) (spans : List Span)
deriving Repr

/-- The language of chunks that come from no tree. -/
def plainLanguage : Text := "text"

namespace Route

/-- The spans of the chunks. -/
def spans : Route → List Span
  | .nothing => []
  | .tree _ _ spans => spans
  | .windows _ spans => spans

/-- The language of the chunks. -/
def language : Route → Text
  | .tree _ language _ => language
  | _ => plainLanguage

/-- How the chunks are found. -/
def strategy : Route → Strategy
  | .tree .. => .syntaxTree
  | _ => .lineWindow

end Route

/-- The route of a document and the attempts that led to it. -/
structure Routing where
  attempts : List Attempt
  route : Route

/-- The route that the outcome of a selection leads to. -/
def routeOf (config : Config) (index : LineIndex) (contents : Contents)
    (outcome : Except Crash (Option (Node × Text))) : Route :=
  let windows := fun reason : Detour => Route.windows reason (config.window.spans index)
  match outcome with
  | .ok (some (root, language)) =>
    match syntaxSpans config index contents root with
    | .ok spans => .tree root language spans
    | .error cause => windows (.notCut root cause)
  | .ok none => windows .noLanguage
  | .error crash => windows (.crashed crash)

/-- How a document is cut. -/
def route (grammars : Grammars) (registry : Registry) (config : Config) (d : Document) : Routing :=
  if d.contents.isEmpty then ⟨[], .nothing⟩
  else
    let tried := attempts grammars registry config.timeout d
    ⟨tried, routeOf config (.ofContents d.contents) d.contents (outcomeOf tried)⟩

/-- The chunk of a span. -/
def Document.chunk (d : Document) (index : LineIndex) (language : Text) (strategy : Strategy)
    (s : Span) : Except OffsetError Chunk := do
  return {
    text := d.sliceText s
    language := language
    startPoint := ← index.pointAt s.start
    stopPoint := ← index.pointAt s.stop
    span := s
    strategy := strategy
    path := d.path }

/-- The chunks of a route. -/
def Document.chunksOf (d : Document) (r : Route) : Except OffsetError (List Chunk) :=
  let index := LineIndex.ofContents d.contents
  r.spans.mapM (d.chunk index r.language r.strategy)

/-- The chunks of a document. -/
def chunkDocument (grammars : Grammars) (registry : Registry) (config : Config) (d : Document) :
    Except OffsetError (List Chunk) :=
  d.chunksOf (route grammars registry config d).route

/-! ## The log -/

/-- The line about a node that was taken whole. -/
def PackingRemark.line (r : PackingRemark) : Option Log.Line :=
  match r.reason with
  | .leaf => none
  | .tooDeep =>
    let what := s!"Depth cap {depthLimit} reached at {r.kind}"
    some ⟨.debug, .packing, s!"{what}; emitting subtree whole"⟩
  | .malformed fault =>
    let what := s!"Malformed {r.kind} node at {r.span.start}:{r.span.stop} ({fault.message})"
    some ⟨.warning, .packing, s!"{what}; treating it as an atomic leaf"⟩

/-- The lines about packing a tree. -/
def packingLines (config : Config) (root : Node) : List Log.Line :=
  (packingRemarks config.budget root).filterMap PackingRemark.line

/-- The lines about a document that was cut into windows. -/
def windowLines (d : Document) (spans : List Span) : List Log.Line :=
  let count := (LineIndex.ofContents d.contents).lineCount
  [⟨.debug, .windows, s!"Fallback produced {spans.length} windows over {count} lines"⟩,
    ⟨.debug, .chunking,
      "No grammar parsed " ++ d.title ++ s!"; {spans.length} fallback chunks"⟩]

/-- The line about a route by a tree that could not be followed. -/
def failureLine (d : Document) : Log.Line :=
  ⟨.error, .chunking, "Syntax chunking failed for " ++ d.title ++ "; using line windows"⟩

/-- The lines about a route. -/
def Route.lines (config : Config) (d : Document) : Route → List Log.Line
  | .nothing => []
  | .tree root language spans =>
    packingLines config root
      ++ [⟨.debug, .chunking,
        d.title ++ " parsed as " ++ language ++ s!": {spans.length} chunks"⟩]
  | .windows .noLanguage spans => windowLines d spans
  | .windows (.crashed _) spans => failureLine d :: windowLines d spans
  | .windows (.notCut root _) spans =>
    packingLines config root ++ failureLine d :: windowLines d spans

/-- The lines about a document. -/
def Routing.lines (config : Config) (d : Document) (r : Routing) : List Log.Line :=
  r.attempts.filterMap (Attempt.line config.timeout d.extension) ++ r.route.lines config d

end SyntaxChunks
