/-
# `SingleLine` — joining spans of one line to their neighbours

A span whose bytes, without the blanks around them, hold no line feed is
joined to the span behind it; the last one, which has none behind it, to the
span before it.  Spans without a byte are left out, and a span that stands
alone is kept.
-/
import SyntaxChunks.Contents
import SyntaxChunks.Span

namespace SyntaxChunks

/-- Do the bytes of the span, without the blanks around them, lie on one
line? -/
def isSingleLine (contents : Contents) (s : Span) : Bool :=
  !(trimBy Text.isBlankByte (contents.slice s.start s.stop).toList).contains newline

/-- What joining from left to right leaves: the spans of several lines, and
the single-line span that still looks for a neighbour. -/
def joinForward (contents : Contents) : Option Span → List Span → List Span × Option Span
  | waiting, [] => ([], waiting)
  | waiting, s :: rest =>
    if s.isEmpty then joinForward contents waiting rest
    else
      let joined : Span := ⟨(waiting.map Span.start).getD s.start, s.stop⟩
      if isSingleLine contents joined then joinForward contents (some joined) rest
      else
        let (spans, last) := joinForward contents none rest
        (joined :: spans, last)

/-- The spans with the last one stretched to `stop`. -/
def stretchLast (stop : Int) : List Span → List Span
  | [] => []
  | [s] => [⟨s.start, stop⟩]
  | s :: rest => s :: stretchLast stop rest

/-- The spans after single-line ones were joined to their neighbours. -/
def joinSingleLines (contents : Contents) (spans : List Span) : List Span :=
  match joinForward contents none spans with
  | (joined, none) => joined
  | ([], some last) => [last]
  | (joined, some last) => stretchLast last.stop joined

end SyntaxChunks
