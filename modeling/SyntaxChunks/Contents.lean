/-
# `Contents` — the bytes of a document, and cutting them

`slice` is total on all integers.  A negative offset counts from the end, and
an offset outside the contents is moved to the nearer end, so a slice whose
ends are inside the contents and in order is exactly the bytes between them.
-/
import SyntaxChunks.Text.Blank

namespace SyntaxChunks

/-- The bytes of one document. -/
abbrev Contents := Array UInt8

/-- The byte that ends a line. -/
def newline : UInt8 := 10

/-- Is the byte a continuation byte of a UTF-8 sequence? -/
def isContinuation (b : UInt8) : Bool :=
  b &&& 0xC0 == 0x80

namespace Contents

/-- The position that an offset names among `size` bytes. -/
def place (size : Nat) (offset : Int) : Nat :=
  if offset < 0 then (offset + size).toNat else min offset.toNat size

/-- The bytes from `start` up to `stop`. -/
def slice (contents : Contents) (start stop : Int) : Contents :=
  contents.extract (place contents.size start) (place contents.size stop)

/-- The byte at an offset, which counts from the end when it is negative. -/
def byteAt? (contents : Contents) (offset : Int) : Option UInt8 :=
  if 0 ≤ offset then contents[offset.toNat]?
  else if 0 ≤ offset + contents.size then contents[(offset + contents.size).toNat]?
  else none

/-- The bytes of a text. -/
def ofText (text : String) : Contents :=
  text.toUTF8.data

end Contents

end SyntaxChunks
