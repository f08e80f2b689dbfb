/-
# `Span` — half-open ranges of byte offsets

Offsets are integers, because a syntax tree may hand back any: negative ones,
ones past the end of the contents, and ranges that stop before they start.
-/

namespace SyntaxChunks

/-- The bytes from offset `start` up to but not including offset `stop`. -/
structure Span where
  start : Int
  stop : Int
deriving DecidableEq, Repr, Inhabited

namespace Span

/-- The number of bytes between the two ends, negative for an inverted span. -/
def length (s : Span) : Int :=
  s.stop - s.start

/-- The least span around both. -/
def hull (a b : Span) : Span :=
  ⟨min a.start b.start, max a.stop b.stop⟩

/-- Does the span hold no byte? -/
def isEmpty (s : Span) : Bool :=
  decide (s.stop ≤ s.start)

end Span

end SyntaxChunks
