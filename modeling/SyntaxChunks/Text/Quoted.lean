/-
# `Text.Quoted` — a text between quotes, for messages

The quote is single, unless the text holds a single quote and no double one.
A backslash and the quote itself are written behind a backslash, line feed,
carriage return and tab by their letters, and any other code point that cannot
be shown by the shortest of `\xNN`, `\uNNNN` and `\UNNNNNNNN`, so that a quoted
text holds characters only.
-/
import SyntaxChunks.Text.Printable

namespace SyntaxChunks.Text

/-- The lower-case hexadecimal digit of a value below sixteen. -/
def hexDigit (n : Nat) : Char :=
  if n < 10 then Char.ofNat (48 + n) else Char.ofNat (87 + n)

/-- The last `width` hexadecimal digits of a number. -/
def hexDigits : Nat → Nat → List Char
  | 0, _ => []
  | width + 1, n => hexDigits width (n / 16) ++ [hexDigit (n % 16)]

/-- The shortest escape that names the code. -/
def codeEscape (code : Nat) : List Char :=
  if code ≤ 0xff then '\\' :: 'x' :: hexDigits 2 code
  else if code ≤ 0xffff then '\\' :: 'u' :: hexDigits 4 code
  else '\\' :: 'U' :: hexDigits 8 code

/-- One code point between the given quotes. -/
def quotedPoint (quote : Char) : CodePoint → List Char
  | .surrogate s => codeEscape s.code
  | .char c =>
    if c == quote || c == '\\' then ['\\', c]
    else if c == '\n' then ['\\', 'n']
    else if c == '\r' then ['\\', 'r']
    else if c == '\t' then ['\\', 't']
    else if isPrintable c then [c]
    else codeEscape c.toNat

/-- The quote that a text is put between. -/
def quoteFor (t : Text) : Char :=
  if t.contains '\'' && !t.contains '"' then '"' else '\''

/-- The text between quotes. -/
def quoted (t : Text) : String :=
  let quote := quoteFor t
  String.ofList (quote :: t.flatMap (quotedPoint quote) ++ [quote])

/-- The text with its surrogates written by their codes. -/
def escaped (t : Text) : String :=
  String.ofList (t.flatMap fun c => c.char?.elim (codeEscape c.code) fun c => [c])

end SyntaxChunks.Text
