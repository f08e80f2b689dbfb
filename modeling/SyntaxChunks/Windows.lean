/-
# `Windows` — overlapping windows of lines

When no grammar reads a document it is cut into windows of equally many lines.
Each window starts `step` lines after the one before, so that neighbours share
`overlap` lines, and the first window that reaches the last line is the last.
-/
import SyntaxChunks.Lines
import SyntaxChunks.Span

namespace SyntaxChunks

/-- The size of a window in lines, and how many of them it shares with the
next. -/
structure LineWindow where
  lines : Nat
  overlap : Nat
  overlap_lt : overlap < lines := by decide
deriving DecidableEq, Repr

/-- The windows that are used unless told otherwise. -/
def LineWindow.standard : LineWindow := { lines := 40, overlap := 15 }

/-- Why two numbers make no window. -/
inductive WindowError where
  | linesNotPositive
  | overlapOutOfRange
deriving DecidableEq, Repr

/-- The text of the error. -/
def WindowError.message : WindowError → String
  | .linesNotPositive => "window_lines must be positive"
  | .overlapOutOfRange => "overlap_lines must be in [0, window_lines)"

namespace LineWindow

/-- The window of the given numbers. -/
def of? (lines overlap : Int) : Except WindowError LineWindow :=
  if lines ≤ 0 then .error .linesNotPositive
  else if h : 0 ≤ overlap ∧ overlap < lines then .ok ⟨lines.toNat, overlap.toNat, by omega⟩
  else .error .overlapOutOfRange

/-- How many lines a window starts after the one before. -/
def step (w : LineWindow) : Nat :=
  w.lines - w.overlap

theorem step_pos (w : LineWindow) : 0 < w.step := by
  have := w.overlap_lt
  unfold step
  omega

/-- The first line of each window, and the line behind its last, from line
`first` on. -/
def rowsFrom (w : LineWindow) (total first : Nat) : List (Nat × Nat) :=
  if first < total then
    let past := min (first + w.lines) total
    if total ≤ past then [(first, past)] else (first, past) :: w.rowsFrom total (first + w.step)
  else []
termination_by total - first
decreasing_by
  have := w.step_pos
  omega

/-- The spans of the windows. -/
def spans (w : LineWindow) (index : LineIndex) : List Span :=
  (w.rowsFrom index.lineCount 0).map fun rows => ⟨index.lineStart rows.1, index.lineStart rows.2⟩

end LineWindow

end SyntaxChunks
