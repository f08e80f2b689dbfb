/-
# `Text.Blank` — blank characters

The characters of the Unicode property `White_Space` together with the four
information separators U+001C–U+001F, and the text without the blanks around
it.  Number texts and bytes know a smaller class, `isBlankByte`: the six
blanks of ASCII proper.
-/
import SyntaxChunks.Text.CodePoint
import SyntaxChunks.Trimming

namespace SyntaxChunks.Text

/-- The blank characters, as ascending ranges with both ends included. -/
def blankRanges : List (Nat × Nat) :=
  [(9, 13), (28, 32), (133, 133), (160, 160), (5760, 5760), (8192, 8202), (8232, 8233),
  (8239, 8239), (8287, 8287), (12288, 12288)]

/-- Does the code lie in one of the ranges? -/
def inRanges (ranges : List (Nat × Nat)) (code : Nat) : Bool :=
  ranges.any fun r => r.1 ≤ code && code ≤ r.2

/-- Is the code point a blank character? -/
def isBlank (c : CodePoint) : Bool :=
  inRanges blankRanges c.code

/-- The text without the blanks around it. -/
def strip (t : Text) : Text :=
  trimBy isBlank t

/-- The blanks of ASCII: tab, line feed, vertical tab, form feed, carriage
return and space. -/
def isBlankByte (b : UInt8) : Bool :=
  b == 32 || (9 ≤ b && b ≤ 13)

end SyntaxChunks.Text
