/-
# `Text.CodePoint` — texts and their code points

A text is a list of code points.  Most of them are characters.  A surrogate is
one half of a pair that writes a character in another form of Unicode; on its
own it is none, and a text that holds one has no UTF-8 form.  The system hands
over bytes that are not UTF-8 in this way, each byte as the surrogate `0xDC00`
above it, and takes them back again; a surrogate can also be written by its
code.

* `Text.utf8?` — the bytes of a text, if it holds characters only.
* `Text.systemBytes?` — the bytes by which the system knows a text.
-/

namespace SyntaxChunks

/-- The code of one half of a surrogate pair. -/
structure Surrogate where
  code : Nat
  code_ge : 0xD800 ≤ code
  code_lt : code < 0xE000
deriving DecidableEq, Repr

/-- A code point: a character, or a surrogate that stands alone. -/
inductive CodePoint where
  | char (c : Char)
  | surrogate (s : Surrogate)
deriving DecidableEq, Repr

/-- A text. -/
abbrev Text := List CodePoint

namespace CodePoint

instance : Coe Char CodePoint := ⟨.char⟩

/-- The number of a code point. -/
def code : CodePoint → Nat
  | .char c => c.toNat
  | .surrogate s => s.code

/-- The character of a code point, if it is one. -/
def char? : CodePoint → Option Char
  | .char c => some c
  | .surrogate _ => none

/-- Is the code point a character? -/
def isChar (c : CodePoint) : Bool :=
  c.char?.isSome

/-- Is the code point a character with some property? -/
def any (p : Char → Bool) (c : CodePoint) : Bool :=
  c.char?.any p

/-- The bytes by which the system knows a code point. -/
def systemBytes? : CodePoint → Option (List UInt8)
  | .char c => some (String.utf8EncodeChar c)
  | .surrogate s =>
    if 0xDC80 ≤ s.code ∧ s.code < 0xDD00 then some [UInt8.ofNat (s.code - 0xDC00)] else none

end CodePoint

namespace Text

/-- The text of some characters. -/
def ofChars (cs : List Char) : Text :=
  cs.map .char

/-- A string as a text. -/
@[coe]
def ofString (s : String) : Text :=
  ofChars s.toList

instance : Coe String Text := ⟨ofString⟩

@[simp]
theorem ofChars_inj {cs ds : List Char} : ofChars cs = ofChars ds ↔ cs = ds :=
  List.map_inj_right fun _ _ => CodePoint.char.inj

@[simp]
theorem ofString_inj {s t : String} : ofString s = ofString t ↔ s = t :=
  ofChars_inj.trans String.toList_inj

/-- The characters of a text, if it holds nothing else. -/
def chars? (t : Text) : Option (List Char) :=
  t.mapM CodePoint.char?

/-- The UTF-8 form of a text, if it has one. -/
def utf8? (t : Text) : Option (List UInt8) :=
  t.chars?.map fun cs => (String.ofList cs).toUTF8.toList

/-- The bytes by which the system knows a text, if it can know it. -/
def systemBytes? (t : Text) : Option (List UInt8) :=
  (t.mapM CodePoint.systemBytes?).map List.flatten

end Text

end SyntaxChunks
