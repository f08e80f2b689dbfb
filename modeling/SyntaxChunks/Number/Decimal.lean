/-
# `Number.Decimal` — doubles as decimal text

`shortest` finds the fewest decimal digits that read back as a given double:
on the grid of one significant digit, then of two, and so on, it tests the two
neighbours of the exact value against the interval of the reals that round to
the double.  The first grid with a hit wins, of two hits the nearer one, and
of two equally near ones the even one.

`Binary64.text` writes these digits without an exponent when the point falls
between four places before the first digit and sixteen behind it, and
`Binary64.fixedTwo` rounds the exact value to two places.
-/
import SyntaxChunks.Number.Binary64

namespace SyntaxChunks.Number

/-- The decimal digits of a natural number. -/
def digitsOf (n : Nat) : List Char :=
  Nat.toDigits 10 n

/-- `10 ^ e` as a numerator and a denominator. -/
def powTen (e : Int) : Nat × Nat :=
  (Nat.pow 10 e.toNat, Nat.pow 10 (-e).toNat)

/-- The `e` with `10 ^ e ≤ num / den < 10 ^ (e + 1)`. -/
def floorLogTen (num den : Nat) : Int :=
  let k : Int := ((digitsOf num).length : Int) - (digitsOf den).length
  let ten := powTen k
  if den * ten.1 ≤ num * ten.2 then k else k - 1

/-- A decimal number `digits * 10 ^ exponent`. -/
structure Decimal where
  digits : Nat
  exponent : Int
deriving DecidableEq, Repr

namespace Decimal

/-- The reals that round to a double: `value`, `low` and `high` are in units of
`unit.1 / unit.2`, and the ends belong to the interval if `closed`. -/
structure Interval where
  low : Nat
  value : Nat
  high : Nat
  unit : Nat × Nat
  closed : Bool

/-- The interval of the double `m * 2 ^ e`.  Below a power of two the doubles
are twice as dense, so the lower end is nearer there. -/
def Interval.of (m : Nat) (e : Int) : Interval :=
  let dense := m = Nat.pow 2 52 ∧ Binary64.minExponent < e
  { low := if dense then 4 * m - 1 else 4 * m - 2
    value := 4 * m
    high := 4 * m + 2
    unit := Binary64.powTwo (e - 2)
    closed := m % 2 == 0 }

/-- Does the decimal number round to the double? -/
def Interval.holds (i : Interval) (d : Decimal) : Bool :=
  let ten := powTen d.exponent
  let x := d.digits * ten.1 * i.unit.2
  let low := i.low * i.unit.1 * ten.2
  let high := i.high * i.unit.1 * ten.2
  if i.closed then low ≤ x && x ≤ high else low < x && x < high

/-- The neighbour of the value with `places` significant digits that rounds to
the double, if there is one. -/
def Interval.neighbour? (i : Interval) (lead : Int) (places : Nat) : Option Decimal :=
  let e := lead - (places - 1)
  let ten := powTen e
  let num := i.value * i.unit.1 * ten.2
  let den := i.unit.2 * ten.1
  let below : Decimal := ⟨num / den, e⟩
  let above : Decimal := ⟨num / den + 1, e⟩
  let nearest : Decimal := ⟨roundHalfEven num den, e⟩
  if i.holds below && i.holds above then some nearest
  else if i.holds below then some below
  else if i.holds above then some above
  else none

/-- The first of the grids of `places`, `places + 1`, … significant digits that
has a neighbour rounding to the double. -/
def Interval.search (i : Interval) (lead : Int) : Nat → Nat → Decimal
  | 0, _ => ⟨0, 0⟩
  | grids + 1, places => (i.neighbour? lead places).getD (i.search lead grids (places + 1))

/-- The shortest decimal number that rounds to `m * 2 ^ e`; seventeen digits
always suffice. -/
def shortest (m : Nat) (e : Int) : Decimal :=
  let i := Interval.of m e
  i.search (floorLogTen (i.value * i.unit.1) i.unit.2) 17 1

end Decimal

/-! ## Text -/

/-- Digits with the point behind the first `point` of them. -/
def positional (digits : List Char) (point : Int) : List Char :=
  if point ≤ 0 then '0' :: '.' :: List.replicate (-point).toNat '0' ++ digits
  else if digits.length ≤ point then
    digits ++ List.replicate (point.toNat - digits.length) '0' ++ ['.', '0']
  else digits.take point.toNat ++ '.' :: digits.drop point.toNat

/-- An exponent of at least two digits behind its sign. -/
def exponentText (e : Int) : List Char :=
  let digits := digitsOf e.natAbs
  'e' :: (if e < 0 then '-' else '+') :: List.replicate (2 - digits.length) '0' ++ digits

/-- Digits with the point behind the first one, and an exponent. -/
def scientific (digits : List Char) (e : Int) : List Char :=
  digits.take 1 ++ (if digits.length ≤ 1 then [] else '.' :: digits.drop 1) ++ exponentText e

/-- Digits without the zeros at their end. -/
def trimZeros (digits : List Char) : List Char :=
  (digits.reverse.dropWhile (· == '0')).reverse

namespace Binary64

/-- The sign of a written number. -/
def signText (negative : Bool) : List Char :=
  if negative then ['-'] else []

/-- The shortest text that reads back as the number. -/
def text : Binary64 → String
  | .nan => "nan"
  | .infinity negative => String.ofList (signText negative ++ ['i', 'n', 'f'])
  | .finite negative m e =>
    if m = 0 then String.ofList (signText negative ++ ['0', '.', '0'])
    else
      let d := Decimal.shortest m e
      let all := digitsOf d.digits
      let point : Int := all.length + d.exponent
      let digits := trimZeros all
      String.ofList (signText negative ++
        if -4 < point ∧ point ≤ 16 then positional digits point else scientific digits (point - 1))

/-- The number rounded to two places. -/
def fixedTwo : Binary64 → String
  | .nan => "nan"
  | .infinity negative => String.ofList (signText negative ++ ['i', 'n', 'f'])
  | .finite negative m e =>
    let two := powTwo e
    let hundredths := roundHalfEven (m * two.1 * 100) two.2
    let digits := digitsOf hundredths
    let padded := List.replicate (3 - digits.length) '0' ++ digits
    let whole := padded.length - 2
    String.ofList (signText negative ++ padded.take whole ++ '.' :: padded.drop whole)

end Binary64

end SyntaxChunks.Number
