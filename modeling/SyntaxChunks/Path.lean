/-
# `Path` — slash-separated paths

A path is a root, which is empty for a path relative to the working folder,
and its parts.  Empty parts and single dots say nothing and are left out; two
dots stay, because what they lead to depends on the folder before them.

The system knows paths by bytes.  A text that it has no bytes for is no path,
and one with a null character is none either (`Path.fault?`).
-/
import SyntaxChunks.Text.CodePoint

namespace SyntaxChunks

/-- A path in its short form. -/
structure Path where
  root : Text
  parts : List Text
deriving DecidableEq, Repr

/-- Why a text is no path. -/
inductive PathFault where
  | notEncodable
  | nul
deriving DecidableEq, Repr

/-- The text of the fault. -/
def PathFault.message : PathFault → String
  | .notEncodable => "a surrogate has no UTF-8 form"
  | .nul => "embedded null byte"

namespace Path

/-- The pieces of a text between its slashes. -/
def splitSlashes : Text → List Text
  | [] => [[]]
  | c :: cs =>
    if c == '/' then [] :: splitSlashes cs
    else
      match splitSlashes cs with
      | [] => [[c]]
      | p :: ps => (c :: p) :: ps

/-- The part of a folder in itself. -/
def here : Text := "."

/-- The part of the folder above. -/
def above : Text := ".."

/-- The path that a text writes.  Exactly two slashes in front are a root of
their own, any other number of them is the usual one. -/
def ofText (text : Text) : Path :=
  let slashes := (text.takeWhile (· == .char '/')).length
  { root := List.replicate (if slashes = 2 then 2 else min slashes 1) '/'
    parts := (splitSlashes text).filter fun p => !p.isEmpty && p != here }

/-- The text of a path. -/
def text (p : Path) : Text :=
  if p.root.isEmpty && p.parts.isEmpty then here
  else p.root ++ List.intercalate "/" p.parts

/-- The last part. -/
def name (p : Path) : Text :=
  p.parts.getLast?.getD []

/-- The last part from its last dot on, unless that dot is its first or its
last character. -/
def suffix (p : Path) : Text :=
  let behind := p.name.reverse.takeWhile (· != .char '.')
  if behind.isEmpty || p.name.length ≤ behind.length + 1 then ""
  else '.' :: behind.reverse

/-- Why a text is no path, if it is none. -/
def fault? (text : Text) : Option PathFault :=
  if text.systemBytes?.isNone then some .notEncodable
  else if text.contains '\x00' then some .nul
  else none

end Path

end SyntaxChunks
