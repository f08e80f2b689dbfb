/-
# `Trimming` — cutting what is skipped off both ends of a list

`trimBy p l` is `l` without its longest first and longest last run of
members of `p`.  It is used on bytes (is a chunk one line?) and on
characters (blanks around a setting), with a different `p` each time.
-/

namespace SyntaxChunks

/-- The list without the members of `p` at its two ends. -/
def trimBy {α : Type} (p : α → Bool) (l : List α) : List α :=
  ((l.dropWhile p).reverse.dropWhile p).reverse

end SyntaxChunks
