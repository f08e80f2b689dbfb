/-
# `Lines` — line feeds of a document, and the points of its offsets

`LineIndex` keeps the size of the contents and the offsets of their line
feeds in ascending order, so that rows, columns and nearest line ends are
found by binary search.  A line feed belongs to the line that it ends, and one
at the very end of the contents opens no further line.

* `LineIndex.lineStart` — the offset of a line's first byte.
* `LineIndex.nearestLineEnd?` — the offset behind the line feed that is
  nearest to a target.
* `LineIndex.pointAt` — the row and column of an offset.
-/
import SyntaxChunks.Contents

namespace SyntaxChunks

/-- A place in a document: its row and its column in bytes, both from zero. -/
structure Point where
  row : Nat
  column : Nat
deriving DecidableEq, Repr, Inhabited

/-- An offset that lies outside contents of the given size. -/
structure OffsetError where
  offset : Int
  size : Nat
deriving DecidableEq, Repr

/-- The text of the error. -/
def OffsetError.message (e : OffsetError) : String :=
  s!"Offset {e.offset} out of bounds (0-{e.size})"

/-- The size of some contents and the ascending offsets of their line feeds. -/
structure LineIndex where
  size : Nat
  feeds : Array Nat
deriving Repr

namespace LineIndex

/-- The offsets of the line feeds of bytes that begin at `offset`. -/
def feedsFrom (offset : Nat) : List UInt8 → List Nat
  | [] => []
  | b :: bs =>
    if b = newline then offset :: feedsFrom (offset + 1) bs else feedsFrom (offset + 1) bs

/-- The index of some contents. -/
def ofContents (contents : Contents) : LineIndex :=
  ⟨contents.size, (feedsFrom 0 contents.toList).toArray⟩

/-! ## Lines -/

/-- The number of lines; a line feed at the very end opens no line. -/
def lineCount (index : LineIndex) : Nat :=
  if index.size = 0 then 0
  else if index.feeds.back? = some (index.size - 1) then index.feeds.size
  else index.feeds.size + 1

/-- The offset where a line starts; lines before the first start at zero and
lines past the last at the end. -/
def lineStart (index : LineIndex) (line : Int) : Nat :=
  if line ≤ 0 then 0
  else if index.lineCount ≤ line then index.size
  else ((index.feeds[(line - 1).toNat]?).map (· + 1)).getD index.size

/-! ## Search -/

/-- The first position in `[low, high)` whose line feed is at `offset` or
behind it, or `high` if there is none. -/
def firstFrom (index : LineIndex) (offset : Int) (low high : Nat) : Nat :=
  if low < high then
    let middle := (low + high) / 2
    if (index.feeds[middle]?).any fun feed => feed < offset then
      index.firstFrom offset (middle + 1) high
    else
      index.firstFrom offset low middle
  else low
termination_by high - low

/-- The offset behind the line feed in `[low, high)` that is nearest to
`target`; of two equally near ones the first. -/
def nearestLineEnd? (index : LineIndex) (target low high : Int) : Option Nat :=
  let first := index.firstFrom low 0 index.feeds.size
  let past := index.firstFrom high 0 index.feeds.size
  if first < past then
    let middle := index.firstFrom target first past
    let before := if first < middle then index.feeds[middle - 1]? else none
    let behind := if middle < past then index.feeds[middle]? else none
    match before, behind with
    | some a, some b => some (if target - a ≤ b - target then a + 1 else b + 1)
    | some a, none => some (a + 1)
    | none, some b => some (b + 1)
    | none, none => none
  else none

/-! ## Points -/

/-- The point of an offset inside the contents or at their end. -/
def pointAt (index : LineIndex) (offset : Int) : Except OffsetError Point :=
  if offset < 0 ∨ index.size < offset then .error ⟨offset, index.size⟩
  else
    let row := index.firstFrom offset 0 index.feeds.size
    if row = 0 then .ok ⟨0, offset.toNat⟩
    else .ok ⟨row, (offset - (index.feeds[row - 1]?).getD 0 - 1).toNat⟩

end LineIndex

end SyntaxChunks
