/-
# `Number.Binary64` — double-precision numbers as exact data

A finite number is a sign, a mantissa and an exponent of two.  Everything that
makes one goes through `ofFraction`, which rounds an exact fraction to the
nearest number of 53 significant bits and exponent at least `-1074`, ties to
the even mantissa, and gives infinity past the greatest one.  So the mantissa
of a finite number lies between `2 ^ 52` and `2 ^ 53`, unless the exponent is
the least.
-/
import SyntaxChunks.Number.Rounding

namespace SyntaxChunks.Number

/-- A double-precision number; a finite one is `mantissa * 2 ^ exponent`. -/
inductive Binary64 where
  | nan
  | infinity (negative : Bool)
  | finite (negative : Bool) (mantissa : Nat) (exponent : Int)
deriving DecidableEq, Repr

namespace Binary64

/-- The least exponent of a finite number. -/
def minExponent : Int := -1074

/-- The greatest exponent of a finite number. -/
def maxExponent : Int := 971

/-- `2 ^ e` as a numerator and a denominator. -/
def powTwo (e : Int) : Nat × Nat :=
  (Nat.pow 2 e.toNat, Nat.pow 2 (-e).toNat)

/-- The zero of a sign. -/
def zero (negative : Bool) : Binary64 :=
  .finite negative 0 minExponent

/-- The exponent at which a positive fraction has 53 significant bits, or the
least one. -/
def exponentOf (num den : Nat) : Int :=
  let k : Int := (num.log2 : Int) - den.log2
  let scale := powTwo k
  max (if den * scale.1 ≤ num * scale.2 then k - 52 else k - 53) minExponent

/-- The double nearest to the fraction `num / den` with the given sign. -/
def ofFraction (negative : Bool) (num den : Nat) : Binary64 :=
  if num = 0 then zero negative
  else
    let e := exponentOf num den
    let scale := powTwo e
    let m := roundHalfEven (num * scale.2) (den * scale.1)
    let (m, e) := if m = Nat.pow 2 53 then (Nat.pow 2 52, e + 1) else (m, e)
    if maxExponent < e then .infinity negative else .finite negative m e

/-- The double nearest to `digits * 10 ^ exponent`.  Powers of ten far outside
the range of the doubles are not multiplied out. -/
def ofDecimal (negative : Bool) (digits : Nat) (exponent : Int) : Binary64 :=
  if digits = 0 then zero negative
  else
    let magnitude := exponent + (digits.log2 * 3 / 10 : Nat)
    if 400 < magnitude then .infinity negative
    else if magnitude + digits.log2 / 20 < -500 then zero negative
    else ofFraction negative (digits * Nat.pow 10 exponent.toNat) (Nat.pow 10 (-exponent).toNat)

/-- The double nearest to an integer. -/
def ofInt (n : Int) : Binary64 :=
  ofFraction (n < 0) n.natAbs 1

/-- The number is one of the two zeros. -/
def isZero : Binary64 → Bool
  | .finite _ m _ => m == 0
  | _ => false

/-- The number is less than zero. -/
def isNegative : Binary64 → Bool
  | .finite negative m _ => negative && m != 0
  | .infinity negative => negative
  | .nan => false

/-- The double nearest to the number times `factor`. -/
def scale (factor : Nat) : Binary64 → Binary64
  | .finite negative m e =>
    let two := powTwo e
    ofFraction negative (m * factor * two.1) two.2
  | x => x

/-- A finite number without its fraction. -/
def truncate? : Binary64 → Option Int
  | .finite negative m e =>
    let two := powTwo e
    let n : Nat := m * two.1 / two.2
    some (if negative then -n else n)
  | _ => none

/-- The 64 bits of the number in the interchange format. -/
def toBits : Binary64 → Nat
  | .nan => 0x7FF8 * Nat.pow 2 48
  | .infinity negative => signBit negative + 0x7FF * Nat.pow 2 52
  | .finite negative m e =>
    signBit negative +
      if m < Nat.pow 2 52 then m
      else (e - minExponent + 1).toNat * Nat.pow 2 52 + (m - Nat.pow 2 52)
where
  signBit (negative : Bool) : Nat := if negative then Nat.pow 2 63 else 0

end Binary64

end SyntaxChunks.Number
