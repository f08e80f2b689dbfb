/-
# `Json.Reader` — JSON text as values

Beside the JSON of the standard the three number words `NaN`, `Infinity` and
`-Infinity` are read.  The last member of a key counts.  A number without
point and exponent is whole.  Two surrogates one behind the other make a
character if they are a pair and both are written by their codes; any other
surrogate stays as it is.  How many digits a whole number may have, and how deep
lists and objects may be nested, is up to the reader (`Limits`).

The value readers take one step of `fuel` for each value, item and member on
the way into the text; every such step reads a code point, so the length of the
text is enough.
-/
import SyntaxChunks.Json.Value
import SyntaxChunks.Number.Reading

namespace SyntaxChunks

/-- Why a text is no JSON value. -/
inductive JsonError where
  | malformed
  | tooManyDigits (count : Nat)
  | tooDeep
deriving DecidableEq, Repr

namespace Json

/-- The greatest number of digits of a whole number, if there is one, and how deep
lists and objects may be nested. -/
structure Limits where
  digits : Option Nat
  depth : Nat

/-- The limits that tables are read by. -/
def Limits.standard : Limits :=
  ⟨some Number.digitLimit, 9990⟩

/-- The text without the blanks in front of it. -/
def skipBlanks (t : Text) : Text :=
  t.dropWhile fun c => c == ' ' || c == '\t' || c == '\n' || c == '\r'

/-! ## Strings -/

/-- The value of a hexadecimal digit. -/
def hexValue? (c : CodePoint) : Option Nat :=
  let code := c.code
  if 48 ≤ code ∧ code ≤ 57 then some (code - 48)
  else if 97 ≤ code ∧ code ≤ 102 then some (code - 87)
  else if 65 ≤ code ∧ code ≤ 70 then some (code - 55)
  else none

/-- The code of four hexadecimal digits. -/
def hexCode? (a b c d : CodePoint) : Option Nat := do
  return (((← hexValue? a) * 16 + (← hexValue? b)) * 16 + (← hexValue? c)) * 16 + (← hexValue? d)

/-- The code point of a code of four hexadecimal digits. -/
def pointOfCode (code : Nat) : CodePoint :=
  if h : 0xD800 ≤ code ∧ code < 0xE000 then .surrogate ⟨code, h.1, h.2⟩ else Char.ofNat code

/-- The character that is written by one letter behind a backslash. -/
def escaped? : CodePoint → Option Char
  | .char '"' => some '"'
  | .char '\\' => some '\\'
  | .char '/' => some '/'
  | .char 'b' => some '\x08'
  | .char 'f' => some '\x0c'
  | .char 'n' => some '\n'
  | .char 'r' => some '\r'
  | .char 't' => some '\t'
  | _ => none

/-- A code point of a string: is it written by its code? -/
structure StringPoint where
  point : CodePoint
  byCode : Bool := false
deriving DecidableEq, Repr

/-- The code points of a string up to its closing quote, and the text behind
it. -/
def stringPoints? : Text → Option (List StringPoint × Text)
  | [] => none
  | .char '"' :: rest => some ([], rest)
  | .char '\\' :: .char 'u' :: a :: b :: c :: d :: rest => do
    let code ← hexCode? a b c d
    let (points, rest) ← stringPoints? rest
    return (⟨pointOfCode code, true⟩ :: points, rest)
  | .char '\\' :: c :: rest => do
    let char ← escaped? c
    let (points, rest) ← stringPoints? rest
    return (⟨char, false⟩ :: points, rest)
  | c :: rest =>
    if c.code < 32 then none
    else do
      let (points, rest) ← stringPoints? rest
      return (⟨c, false⟩ :: points, rest)

/-- The character of a surrogate pair, if the surrogates are one. -/
def pair? (high low : Surrogate) : Option Char :=
  if high.code < 0xDC00 ∧ 0xDC00 ≤ low.code then
    some (Char.ofNat (0x10000 + (high.code - 0xD800) * 0x400 + (low.code - 0xDC00)))
  else none

/-- The text of some code points, with surrogate pairs joined. -/
def joinPairs : List StringPoint → Text
  | [] => []
  | ⟨.surrogate high, true⟩ :: ⟨.surrogate low, true⟩ :: rest =>
    match pair? high low with
    | some c => c :: joinPairs rest
    | none => .surrogate high :: joinPairs (⟨.surrogate low, true⟩ :: rest)
  | p :: rest => p.point :: joinPairs rest

/-- A string behind its opening quote. -/
def readString (t : Text) : Except JsonError (Text × Text) :=
  match stringPoints? t with
  | some (points, rest) => .ok (joinPairs points, rest)
  | none => .error .malformed

/-! ## Numbers -/

/-- Is the code point a decimal digit of ASCII? -/
def isDigit (c : CodePoint) : Bool :=
  c.any Char.isDigit

/-- The fraction in front of a text: a point and at least one digit. -/
def fraction : Text → Text × Text
  | .char '.' :: rest =>
    let digits := rest.takeWhile isDigit
    if digits.isEmpty then ([], .char '.' :: rest)
    else (.char '.' :: digits, rest.dropWhile isDigit)
  | t => ([], t)

/-- The exponent in front of a text: its mark, a sign that may be left out, and
at least one digit. -/
def exponent : Text → Text × Text
  | [] => ([], [])
  | mark :: rest =>
    let sign := rest.takeWhile fun c => c == .char '+' || c == .char '-'
    let behind := rest.drop sign.length
    let digits := behind.takeWhile isDigit
    if (mark == 'e' || mark == 'E') && sign.length ≤ 1 && !digits.isEmpty then
      (mark :: sign ++ digits, behind.dropWhile isDigit)
    else ([], mark :: rest)

/-- The digits of the whole part in front of a text.  A zero has no digit behind
it. -/
def wholePart : Text → Text × Text
  | .char '0' :: rest => (['0'], rest)
  | t => (t.takeWhile isDigit, t.dropWhile isDigit)

/-- A number behind its sign. -/
def readNumber (limits : Limits) (negative : Bool) (t : Text) : Except JsonError (Json × Text) :=
  let (whole, rest) := wholePart t
  let (part, rest) := fraction rest
  let (power, rest) := exponent rest
  let chars := (whole ++ part ++ power).filterMap CodePoint.char?
  if whole.isEmpty then .error .malformed
  else if part.isEmpty && power.isEmpty then
    if limits.digits.any (· < whole.length) then .error (.tooManyDigits whole.length)
    else
      let n : Nat := Number.natOfDigits chars
      .ok (.int (if negative then -n else n), rest)
  else
    match Number.readDecimal? negative chars with
    | some x => .ok (.float x, rest)
    | none => .error .malformed

/-! ## Values -/

/-- The words that stand for values. -/
def words : List (Text × Json) :=
  [("null", .null), ("true", .bool true), ("false", .bool false), ("NaN", .float .nan),
  ("Infinity", .float (.infinity false)), ("-Infinity", .float (.infinity true))]

/-- A value that is neither a string, a list nor an object. -/
def readScalar (limits : Limits) (t : Text) : Except JsonError (Json × Text) :=
  match words.find? fun w => w.1.isPrefixOf t with
  | some w => .ok (w.2, t.drop w.1.length)
  | none =>
    match t with
    | .char '-' :: rest => readNumber limits true rest
    | t => readNumber limits false t

mutual

/-- The value in front of a text, in which lists and objects may be nested
`depth` deep. -/
def readValue (limits : Limits) : Nat → Nat → Text → Except JsonError (Json × Text)
  | 0, _, _ => .error .malformed
  | _ + 1, _, .char '"' :: rest => do
    let (s, rest) ← readString rest
    return (.str s, rest)
  | _ + 1, 0, .char '[' :: _ => .error .tooDeep
  | fuel + 1, depth + 1, .char '[' :: rest =>
    match skipBlanks rest with
    | .char ']' :: rest => .ok (.arr [], rest)
    | rest => do
      let (items, rest) ← readItems limits fuel depth rest
      return (.arr items, rest)
  | _ + 1, 0, .char '\x7b' :: _ => .error .tooDeep
  | fuel + 1, depth + 1, .char '\x7b' :: rest =>
    match skipBlanks rest with
    | .char '\x7d' :: rest => .ok (.obj [], rest)
    | rest => do
      let (members, rest) ← readMembers limits fuel depth [] rest
      return (.obj members, rest)
  | _ + 1, _, t => readScalar limits t

/-- The items of a list up to its closing bracket. -/
def readItems (limits : Limits) : Nat → Nat → Text → Except JsonError (List Json × Text)
  | 0, _, _ => .error .malformed
  | fuel + 1, depth, t => do
    let (item, rest) ← readValue limits fuel depth t
    match skipBlanks rest with
    | .char ']' :: rest => return ([item], rest)
    | .char ',' :: rest =>
      let (items, rest) ← readItems limits fuel depth (skipBlanks rest)
      return (item :: items, rest)
    | _ => .error .malformed

/-- The members of an object up to its closing brace, behind the given
ones. -/
def readMembers (limits : Limits) : Nat → Nat → List (Text × Json) → Text →
    Except JsonError (List (Text × Json) × Text)
  | 0, _, _, _ => .error .malformed
  | fuel + 1, depth, before, .char '"' :: rest => do
    let (key, rest) ← readString rest
    match skipBlanks rest with
    | .char ':' :: rest =>
      let (value, rest) ← readValue limits fuel depth (skipBlanks rest)
      let members := setMember key value before
      match skipBlanks rest with
      | .char '\x7d' :: rest => return (members, rest)
      | .char ',' :: rest => readMembers limits fuel depth members (skipBlanks rest)
      | _ => .error .malformed
    | _ => .error .malformed
  | _ + 1, _, _, _ => .error .malformed

end

/-- The value that a whole text writes. -/
def parseWithin (limits : Limits) (t : Text) : Except JsonError Json := do
  let (value, rest) ← readValue limits (t.length + 1) limits.depth (skipBlanks t)
  if (skipBlanks rest).isEmpty then return value else .error .malformed

/-- The value that the text of a table writes. -/
def parse (t : Text) : Except JsonError Json :=
  parseWithin .standard t

end Json

end SyntaxChunks
