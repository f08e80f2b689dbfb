/-
# `Tiling` — spans made contiguous over a range

Every span is stretched to the start of the next one, the first begins at the
start of the range and the last ends at its end.  What a tree leaves out
between its nodes thereby stays with the span before it.  A span that would
not move the left edge is dropped, so that the result tiles the range whatever
the given spans are.
-/
import SyntaxChunks.Span

namespace SyntaxChunks

/-- The spans between `left`, the given cuts, and `stop`; a cut outside
`[left, stop]` is moved to the nearer end, and one that does not advance is
dropped. -/
def tileFrom (left stop : Int) : List Int → List Span
  | [] => []
  | c :: cuts =>
    let cut := min (max c left) stop
    if left < cut then ⟨left, cut⟩ :: tileFrom cut stop cuts else tileFrom left stop cuts

/-- The given spans, made contiguous over `[start, stop)`. -/
def tile (spans : List Span) (start stop : Int) : List Span :=
  if stop ≤ start then []
  else if spans.isEmpty then [⟨start, stop⟩]
  else tileFrom start stop ((spans.drop 1).map Span.start ++ [stop])

end SyntaxChunks
