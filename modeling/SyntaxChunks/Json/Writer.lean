/-
# `Json.Writer` — JSON values as text

A comma is followed by a space, a colon too.  Within a string only the double
quote, the backslash and the controls below the space are escaped; everything
else, surrogates among it, is written as it is.
-/
import SyntaxChunks.Json.Value

namespace SyntaxChunks.Json

/-- One character of a string. -/
def stringChar (c : Char) : List Char :=
  if c == '"' then ['\\', '"']
  else if c == '\\' then ['\\', '\\']
  else if c == '\n' then ['\\', 'n']
  else if c == '\r' then ['\\', 'r']
  else if c == '\t' then ['\\', 't']
  else if c == '\x0c' then ['\\', 'f']
  else if c == '\x08' then ['\\', 'b']
  else if c.toNat < 32 then '\\' :: 'u' :: Text.hexDigits 4 c.toNat
  else [c]

/-- One code point of a string. -/
def stringPoint : CodePoint → Text
  | .char c => Text.ofChars (stringChar c)
  | .surrogate s => [.surrogate s]

/-- A string between double quotes. -/
def stringText (t : Text) : Text :=
  .char '"' :: t.flatMap stringPoint ++ [.char '"']

/-- Some texts with a comma and a space between each two. -/
def listed (texts : List Text) : Text :=
  List.intercalate ", " texts

mutual

/-- The text of a value. -/
def render : Json → Text
  | .null => "null"
  | .bool value => if value then "true" else "false"
  | .int value => toString value
  | .float value => value.text
  | .str value => stringText value
  | .arr items => "[" ++ listed (renderItems items) ++ "]"
  | .obj members => "\x7b" ++ listed (renderMembers members) ++ "\x7d"

/-- The texts of the items of a list. -/
def renderItems : List Json → List Text
  | [] => []
  | v :: rest => render v :: renderItems rest

/-- The texts of the members of an object. -/
def renderMembers : List (Text × Json) → List Text
  | [] => []
  | (key, v) :: rest => (stringText key ++ ": " ++ render v) :: renderMembers rest

end

end SyntaxChunks.Json
