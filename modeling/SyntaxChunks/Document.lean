/-
# `Document` — the contents of one file and what is known of it

The extension only changes the order in which languages are tried.
-/
import SyntaxChunks.Extension
import SyntaxChunks.Files
import SyntaxChunks.Span
import SyntaxChunks.Text.Utf8

namespace SyntaxChunks

/-- Contents, the normalized extension of the file they come from, and its
path. -/
structure Document where
  contents : Contents
  extension : Option Text
  path : Text
deriving DecidableEq, Repr

namespace Document

/-- A document whose extension is yet to be normalized. -/
def of (contents : Contents) (extension : Option Text) (path : Text) : Document :=
  ⟨contents, extensionKey? extension, path⟩

/-- The document of a file. -/
def ofFile (files : FileSystem) (path : Text) : Except ReadError Document := do
  return of (← files.read path) (some (Path.ofText path).suffix) path

/-- The text of a span, decoded on its own. -/
def sliceText (d : Document) (s : Span) : String :=
  Text.Utf8.decode (d.contents.slice s.start s.stop)

/-- The name of the document in a message. -/
def title (d : Document) : Text :=
  if d.path.isEmpty then "<text>" else d.path

end Document

end SyntaxChunks
