/-
# `Extension` — file extensions in the form in which they are compared

An extension is compared without the blanks around it, without the dots in
front of what is then left, and in lower case.  The three steps are taken once
and in this order.
-/
import SyntaxChunks.Text.Lower

namespace SyntaxChunks

/-- The form of an extension in which it is compared. -/
def normalizeExtension (extension : Text) : Text :=
  Text.lower ((Text.strip extension).dropWhile (· == .char '.'))

/-- The form of an extension that may be missing; `none` if nothing is left. -/
def extensionKey? (extension : Option Text) : Option Text :=
  let key := normalizeExtension (extension.getD "")
  if key.isEmpty then none else some key

end SyntaxChunks
