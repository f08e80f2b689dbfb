/-
# `Text.Utf8` — reading bytes as UTF-8

A machine reads one byte at a time.  Between characters it is `idle`; inside a
character it knows how many continuation bytes are still to come, the bits read
so far, and the range in which the next byte has to lie.  Only the first
continuation byte has a range of its own: it keeps overlong forms, surrogates
and codes past U+10FFFF out.

A byte that cannot follow ends the character as malformed and is read again
from `idle`, so each longest part that begins like a character but is none
gives exactly one mark.  In particular a line feed leaves the machine idle
whatever came before it.
-/
import SyntaxChunks.Contents

namespace SyntaxChunks.Text.Utf8

/-- What the machine knows between two bytes. -/
inductive State where
  | idle
  | inside (missing bits : Nat) (low high : UInt8)
deriving DecidableEq, Repr

/-- What the machine reads: a character, or `none` for a malformed part. -/
abbrev Reading := List (Option Char)

/-- The first byte of a character. -/
def lead (b : UInt8) : State × Reading :=
  let n := b.toNat
  if n < 0x80 then (.idle, [some (Char.ofNat n)])
  else if n < 0xC2 then (.idle, [none])
  else if n < 0xE0 then (.inside 1 (n - 0xC0) 0x80 0xBF, [])
  else if n < 0xF0 then
    (.inside 2 (n - 0xE0) (if n = 0xE0 then 0xA0 else 0x80) (if n = 0xED then 0x9F else 0xBF), [])
  else if n < 0xF5 then
    (.inside 3 (n - 0xF0) (if n = 0xF0 then 0x90 else 0x80) (if n = 0xF4 then 0x8F else 0xBF), [])
  else (.idle, [none])

/-- One byte. -/
def step : State → UInt8 → State × Reading
  | .idle, b => lead b
  | .inside missing bits low high, b =>
    if low ≤ b ∧ b ≤ high then
      let more := bits * 64 + (b.toNat - 0x80)
      if missing ≤ 1 then (.idle, [some (Char.ofNat more)])
      else (.inside (missing - 1) more 0x80 0xBF, [])
    else ((lead b).1, none :: (lead b).2)

/-- The end of the bytes: a character that is still open is malformed. -/
def State.finish : State → Reading
  | .idle => []
  | .inside .. => [none]

/-- All that the machine reads from a state on. -/
def run : State → List UInt8 → Reading
  | s, [] => s.finish
  | s, b :: bs => (step s b).2 ++ run (step s b).1 bs

/-- The character that stands for a malformed part. -/
def replacement : Char := '\uFFFD'

/-- The bytes as characters, every malformed part replaced. -/
def decodeChars (bytes : List UInt8) : List Char :=
  (run .idle bytes).map fun c => c.getD replacement

/-- The contents as a text, every malformed part replaced. -/
def decode (contents : Contents) : String :=
  String.ofList (decodeChars contents.toList)

/-- The characters, unless a part is malformed. -/
def decodeStrict? (contents : Contents) : Option (List Char) :=
  (run .idle contents.toList).mapM id

end SyntaxChunks.Text.Utf8
