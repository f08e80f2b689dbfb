/-
# `Pieces` — hard cuts through spans over the budget

A span longer than the budget is cut as often as needed.  Each cut is made
behind the line feed nearest to the budget within a window before it, and
without such a line feed at the budget itself, moved back to the start of a
UTF-8 character.  The window is a quarter of the budget, and at least one
byte.

* `nextCut` — where a piece that starts at a given offset ends.
* `piecesOfSpan`, `splitOversized` — the pieces of one span, and of all.
-/
import SyntaxChunks.Lines
import SyntaxChunks.Number.Rounding
import SyntaxChunks.Span

namespace SyntaxChunks

/-- Why spans cannot be cut. -/
inductive SplitError where
  /-- The cut would have to be moved back from an offset that names no byte. -/
  | outsideContents (offset : Int)
  /-- The budget is beyond the range of double precision. -/
  | budgetTooLarge
deriving DecidableEq, Repr

/-- The text of the error. -/
def SplitError.message : SplitError → String
  | .outsideContents offset => s!"no byte at offset {offset}"
  | .budgetTooLarge => "budget too large"

/-- The number of bytes before the budget in which a line feed is looked for:
a quarter of the budget, which is taken in double precision, and at least
one. -/
def cutWindow (budget : Nat) : Except SplitError Nat :=
  let rounded := Number.toSignificant 53 budget
  if Nat.pow 2 1024 ≤ rounded then .error .budgetTooLarge else .ok (max 1 (rounded / 4))

/-- The last start of a character at `offset` or before it, but not at `floor`
or before that. -/
def characterStart (contents : Contents) (floor offset : Int) : Except SplitError Int :=
  if floor + 1 < offset then
    match contents.byteAt? offset with
    | none => .error (.outsideContents offset)
    | some b => if isContinuation b then characterStart contents floor (offset - 1) else .ok offset
  else .ok offset
termination_by (offset - floor).toNat

/-- The end of a piece that starts at `start` and may not have more than
`budget` bytes. -/
def nextCut (contents : Contents) (index : LineIndex) (budget window : Nat) (start : Int) :
    Except SplitError Int :=
  let target := start + budget
  match index.nearestLineEnd? target (max (start + 1) (target - window)) target with
  | some cut => .ok cut
  | none => characterStart contents start target

/-- The pieces from `start` to `stop`.  A budget of nothing allows no cut. -/
def piecesOfSpan (contents : Contents) (index : LineIndex) (budget window : Nat)
    (start stop : Int) : Except SplitError (List Span) :=
  if budget < stop - start then do
    let cut ← nextCut contents index budget window start
    if start < cut then
      return ⟨start, cut⟩ :: (← piecesOfSpan contents index budget window cut stop)
    else return [⟨start, stop⟩]
  else .ok [⟨start, stop⟩]
termination_by (stop - start).toNat

/-- The spans with those over the budget cut into pieces. -/
def splitOversized (contents : Contents) (index : LineIndex) (budget : Nat) (spans : List Span) :
    Except SplitError (List Span) := do
  let window ← cutWindow budget
  let pieces ← spans.mapM fun s => piecesOfSpan contents index budget window s.start s.stop
  return pieces.flatten

end SyntaxChunks
