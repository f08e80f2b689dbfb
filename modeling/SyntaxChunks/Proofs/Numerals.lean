/-
# `Proofs.Numerals` — whole numbers in decimal digits

The numeral of a number holds decimal digits only, has no zero in front unless
it is that of zero, and reads as its number again (`natOfDigits_numeral`).  So a
numeral tells its number, with a sign as without.
-/
import SyntaxChunks.Number.Reading

namespace SyntaxChunks.Number

/-- The decimal digits of a number. -/
def numeral (n : Nat) : List Char :=
  Nat.toDigits 10 n

theorem toList_repr (n : Nat) : n.repr.toList = numeral n := by
  rw [Nat.repr_eq_ofList_toDigits, String.toList_ofList, numeral]

theorem isDigit_of_mem_numeral {n : Nat} : ∀ c ∈ numeral n, c.isDigit = true :=
  fun _ hc => Nat.isDigit_of_mem_toDigits (by decide) (by decide) hc

theorem numeral_ne_nil (n : Nat) : numeral n ≠ [] :=
  Nat.toDigits_ne_nil

theorem natOfDigits_numeral (n : Nat) : natOfDigits (numeral n) = n := by
  have hvalue : natOfDigits (numeral n) = Nat.ofDigitChars 10 (numeral n) 0 := by
    rw [Nat.ofDigitChars_eq_foldl, natOfDigits]
    simp only [Nat.mul_comm 10]
    rfl
  rw [hvalue, numeral, Nat.ofDigitChars_ten_toDigits]

/-- Only the numeral of zero begins with a zero. -/
theorem eq_zero_of_numeral_eq_zero_cons {n : Nat} {rest : List Char} (h : numeral n = '0' :: rest) :
    n = 0 ∧ rest = [] := by
  induction n using Nat.strongRecOn generalizing rest with
  | ind n ih =>
      by_cases hsmall : n < 10
      · have hdigit : ∀ d < 10, Nat.digitChar d = '0' → d = 0 := by decide
        rw [numeral, Nat.toDigits_of_lt_base hsmall, List.cons.injEq] at h
        exact ⟨hdigit n hsmall h.1, h.2.symm⟩
      · -- without its last digit the numeral begins in the same way
        rw [numeral, Nat.toDigits_of_base_le (by decide) (Nat.not_lt.mp hsmall)] at h
        obtain ⟨c, front, hfront⟩ := List.exists_cons_of_ne_nil (numeral_ne_nil (n / 10))
        have hfront' : Nat.toDigits 10 (n / 10) = c :: front := hfront
        rw [hfront', List.cons_append, List.cons.injEq] at h
        rw [h.1] at hfront
        have hzero := (ih (n / 10) (by omega) hfront).1
        omega

/-- A negative number has a sign in front of its numeral. -/
theorem toList_toString (i : Int) :
    (toString i).toList = (if i < 0 then ['-'] else []) ++ numeral i.natAbs := by
  cases i with
  | ofNat n => exact toList_repr n
  | negSucc n =>
      rw [if_pos (Int.negSucc_lt_zero n), Int.natAbs_negSucc, ← toList_repr]
      exact String.toList_append

/-- The numeral of a whole number, with its sign, tells the number. -/
theorem eq_of_toString_eq {i j : Int} (h : toString i = toString j) : i = j := by
  have hminus : ∀ n rest, numeral n ≠ '-' :: rest := by
    intro n rest heq
    have hdigit := isDigit_of_mem_numeral '-' (heq ▸ List.mem_cons_self)
    exact absurd hdigit (by decide)
  have hnat : ∀ {n m : Nat}, numeral n = numeral m → n = m := by
    intro n m heq
    rw [← natOfDigits_numeral n, heq, natOfDigits_numeral]
  have hchars := congrArg String.toList h
  rw [toList_toString, toList_toString] at hchars
  split at hchars <;> split at hchars
  · have habs := hnat (List.append_cancel_left hchars)
    omega
  · exact absurd hchars.symm (hminus _ _)
  · exact absurd hchars (hminus _ _)
  · have habs := hnat (List.append_cancel_left hchars)
    omega

end SyntaxChunks.Number
