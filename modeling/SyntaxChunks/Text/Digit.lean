/-
# `Text.Digit` — decimal digits of every script

Each script writes its ten decimal digits as ten neighbouring characters, so
the class is given by its zeros.  `Text.asciiDigits` writes a number text in
ASCII: every digit as its ASCII twin, every blank beyond ASCII as a space.
-/
import SyntaxChunks.Text.Blank

namespace SyntaxChunks.Text

/-- The characters that write the digit zero. -/
def zeroCodes : List Nat :=
  [48, 1632, 1776, 1984, 2406, 2534, 2662, 2790, 2918, 3046, 3174, 3302, 3430, 3558, 3664, 3792,
  3872, 4160, 4240, 6112, 6160, 6470, 6608, 6784, 6800, 6992, 7088, 7232, 7248, 42528, 43216,
  43264, 43472, 43504, 43600, 44016, 65296, 66720, 68912, 69734, 69872, 69942, 70096, 70384,
  70736, 70864, 71248, 71360, 71472, 71904, 72016, 72784, 73040, 73120, 92768, 92864, 93008,
  120782, 120792, 120802, 120812, 120822, 123200, 123632, 125264, 130032]

/-- The value of a decimal digit. -/
def digitValue? (c : CodePoint) : Option Nat :=
  (zeroCodes.find? fun z => z ≤ c.code && c.code ≤ z + 9).map fun z => c.code - z

/-- The ASCII digit of a value below ten. -/
def asciiDigit (n : Nat) : Char :=
  Char.ofNat (48 + n)

/-- The characters with every decimal digit in ASCII and every blank beyond
ASCII as a space. -/
def asciiDigits (cs : List Char) : List Char :=
  cs.map fun c =>
    if c.toNat < 127 then c
    else if isBlank c then ' '
    else (digitValue? c).elim c asciiDigit

end SyntaxChunks.Text
