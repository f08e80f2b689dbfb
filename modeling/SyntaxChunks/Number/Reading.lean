/-
# `Number.Reading` — numbers written by people

A number may have blanks around it, a sign, decimal digits of any script, and
single underscores between two digits.  A whole number has at most 4300 digits;
a decimal one may have a point and an exponent, or be one of `inf`,
`infinity` and `nan` in any case.
-/
import SyntaxChunks.Number.Binary64
import SyntaxChunks.Text.Digit

namespace SyntaxChunks.Number

/-- The greatest number of digits of a whole number. -/
def digitLimit : Nat := 4300

/-- The value of a run of ASCII digits. -/
def natOfDigits (digits : List Char) : Nat :=
  digits.foldl (fun n c => n * 10 + (c.toNat - 48)) 0

/-- The characters without the underscores that stand between two digits, the
first of which is `before`; `none` if an underscore stands elsewhere. -/
def dropUnderscores? (before : Char) : List Char → Option (List Char)
  | [] => some []
  | '_' :: c :: rest =>
    if before.isDigit && c.isDigit then (dropUnderscores? c rest).map (c :: ·) else none
  | ['_'] => none
  | c :: rest => (dropUnderscores? c rest).map (c :: ·)

/-- A sign and what follows it: is it a minus? -/
def splitSign : List Char → Bool × List Char
  | '-' :: rest => (true, rest)
  | '+' :: rest => (false, rest)
  | rest => (false, rest)

/-- The characters of a number text in ASCII, without blanks around them and
underscores inside.  A text with a surrogate writes no number. -/
def plainNumber? (t : Text) : Option (List Char) := do
  let isBlank := fun c : Char => c == ' ' || ('\t' ≤ c && c ≤ '\r')
  dropUnderscores? ' ' (trimBy isBlank (Text.asciiDigits (← t.chars?)))

/-- The whole number that a text writes. -/
def readInt? (t : Text) : Option Int := do
  let (negative, digits) := splitSign (← plainNumber? t)
  if digits.isEmpty || !digits.all Char.isDigit || digitLimit < digits.length then none
  else
    let n : Nat := natOfDigits digits
    some (if negative then -n else n)

/-- An exponent without its mark. -/
def readExponent? (cs : List Char) : Option Int :=
  let (negative, digits) := splitSign cs
  if digits.isEmpty || !digits.all Char.isDigit then none
  else
    let n : Nat := natOfDigits digits
    some (if negative then -n else n)

/-- The double that digits, a point and an exponent write. -/
def readDecimal? (negative : Bool) (cs : List Char) : Option Binary64 := do
  let whole := cs.takeWhile Char.isDigit
  let rest := cs.dropWhile Char.isDigit
  let (fraction, rest) :=
    match rest with
    | '.' :: r => (r.takeWhile Char.isDigit, r.dropWhile Char.isDigit)
    | r => ([], r)
  if whole.isEmpty && fraction.isEmpty then none
  else
    let exponent ←
      match rest with
      | [] => some 0
      | c :: r => if c == 'e' || c == 'E' then readExponent? r else none
    some (.ofDecimal negative (natOfDigits (whole ++ fraction)) (exponent - fraction.length))

/-- The double that a text writes. -/
def readBinary64? (t : Text) : Option Binary64 := do
  let (negative, cs) := splitSign (← plainNumber? t)
  match String.ofList (cs.map Char.toLower) with
  | "inf" => some (.infinity negative)
  | "infinity" => some (.infinity negative)
  | "nan" => some .nan
  | _ => readDecimal? negative cs

end SyntaxChunks.Number
