/-
# `Number.Rounding` — quotients rounded to the nearest natural number

A quotient half-way between two natural numbers goes to the even one.
-/

namespace SyntaxChunks.Number

/-- The natural number nearest to `num / den`, the even one of two. -/
def roundHalfEven (num den : Nat) : Nat :=
  if 2 * (num % den) < den ∨ (2 * (num % den) = den ∧ num / den % 2 = 0) then num / den
  else num / den + 1

/-- The number nearest to `n` among those of at most `bits` significant bits,
the one with an even last bit of two. -/
def toSignificant (bits n : Nat) : Nat :=
  let unit := Nat.pow 2 (n.log2 + 1 - bits)
  roundHalfEven n unit * unit

end SyntaxChunks.Number
