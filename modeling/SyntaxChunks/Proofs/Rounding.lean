/-
# `Proofs.Rounding` — which numbers stay below a power of two when rounded

Rounding to multiples of a unit does not cross a multiple
(`roundHalfEven_mul_le`, `le_roundHalfEven_mul`).  An even multiple is reached
from half a unit below it on, because the multiple before it is odd and a tie
goes away from that (`roundHalfEven_mul_lt_iff`).  For significant bits this
makes the limit from which on a number is rounded to a power of two or beyond
(`toSignificant_lt_iff`).  A number of no more bits than are kept is not
rounded at all (`toSignificant_of_le`).
-/
import SyntaxChunks.Number.Rounding

namespace SyntaxChunks.Number

/-! ## Multiples of a unit -/

section

variable {num den unit c n : Nat}

theorem le_roundHalfEven : num / den ≤ roundHalfEven num den := by
  unfold roundHalfEven
  split <;> omega

theorem roundHalfEven_le : roundHalfEven num den ≤ num / den + 1 := by
  unfold roundHalfEven
  split <;> omega

/-- From an odd quotient rounding goes up unless the rest is less than a half. -/
theorem roundHalfEven_le_iff_of_odd (hodd : num / den % 2 = 1) :
    roundHalfEven num den ≤ num / den ↔ 2 * (num % den) < den := by
  unfold roundHalfEven
  split <;> omega

theorem roundHalfEven_mul_le (hunit : 0 < unit) (h : n < c * unit) :
    roundHalfEven n unit * unit ≤ c * unit := by
  have hquot : n / unit < c := (Nat.div_lt_iff_lt_mul hunit).mpr h
  exact Nat.mul_le_mul_right unit (Nat.le_trans roundHalfEven_le hquot)

theorem le_roundHalfEven_mul (hunit : 0 < unit) (h : c * unit ≤ n) :
    c * unit ≤ roundHalfEven n unit * unit := by
  have hquot : c ≤ n / unit := (Nat.le_div_iff_mul_le hunit).mpr h
  exact Nat.mul_le_mul_right unit (Nat.le_trans hquot le_roundHalfEven)

/-- Multiples of the unit stay where they are. -/
theorem roundHalfEven_mul_of_dvd (hunit : 0 < unit) (h : unit ∣ n) :
    roundHalfEven n unit * unit = n := by
  have hrest : n % unit = 0 := Nat.mod_eq_zero_of_dvd h
  rw [roundHalfEven, if_pos (.inl (by omega)), Nat.div_mul_cancel h]

/-- A number below an even multiple stays below it if it is more than half a
unit away. -/
theorem roundHalfEven_mul_lt_iff {half : Nat} (hhalf : 0 < half) (hunit : unit = 2 * half)
    (heven : c % 2 = 0) (h : n < c * unit) :
    roundHalfEven n unit * unit < c * unit ↔ n < c * unit - half := by
  have hpos : 0 < unit := by omega
  have hquot : n / unit < c := (Nat.div_lt_iff_lt_mul hpos).mpr h
  have hrest := Nat.div_add_mod' n unit
  have hmod := Nat.mod_lt n hpos
  rw [Nat.mul_lt_mul_right hpos]
  rcases Nat.lt_or_ge (n / unit + 1) c with hbefore | hlast
  · -- the next multiple is below `c` already
    have hnext : (n / unit + 2) * unit ≤ c * unit := Nat.mul_le_mul_right unit hbefore
    have hround : roundHalfEven n unit ≤ n / unit + 1 := roundHalfEven_le
    rw [Nat.add_mul] at hnext
    constructor
    · omega
    · omega
  · have heq : c = n / unit + 1 := by omega
    have hodd : n / unit % 2 = 1 := by omega
    have hround := roundHalfEven_le_iff_of_odd hodd
    rw [heq, Nat.lt_succ_iff, hround, Nat.add_mul]
    omega

end

/-! ## Significant bits -/

section

variable {bits m n : Nat}

theorem pow_two_pos (k : Nat) : 0 < Nat.pow 2 k :=
  Nat.pow_pos (by decide)

theorem pow_two_split {a b : Nat} (h : b ≤ a) :
    Nat.pow 2 a = Nat.pow 2 (a - b) * Nat.pow 2 b := by
  calc Nat.pow 2 a = Nat.pow 2 (a - b + b) := by rw [Nat.sub_add_cancel h]
    _ = Nat.pow 2 (a - b) * Nat.pow 2 b := Nat.pow_add ..

theorem toSignificant_le (bits n : Nat) : toSignificant bits n ≤ Nat.pow 2 (n.log2 + 1) := by
  have hsplit := pow_two_split (Nat.sub_le (n.log2 + 1) bits)
  have hlt : n < Nat.pow 2 (n.log2 + 1) := Nat.lt_log2_self
  rw [hsplit] at hlt ⊢
  exact roundHalfEven_mul_le (pow_two_pos _) hlt

theorem le_toSignificant (hbits : 0 < bits) (hn : n ≠ 0) :
    Nat.pow 2 n.log2 ≤ toSignificant bits n := by
  have hsplit := pow_two_split (show n.log2 + 1 - bits ≤ n.log2 by omega)
  have hle : Nat.pow 2 n.log2 ≤ n := Nat.log2_self_le hn
  rw [hsplit] at hle ⊢
  exact le_roundHalfEven_mul (pow_two_pos _) hle

/-- A number that needs no more than the significant bits is not rounded. -/
theorem toSignificant_of_le (hbits : 0 < bits) (h : n ≤ Nat.pow 2 bits) :
    toSignificant bits n = n := by
  refine roundHalfEven_mul_of_dvd (pow_two_pos _) ?_
  rcases Nat.eq_or_lt_of_le h with rfl | hlt
  · have hlog : (Nat.pow 2 bits).log2 = bits := Nat.log2_two_pow
    rw [hlog]
    exact Nat.pow_dvd_pow 2 (by omega)
  · rcases Nat.eq_zero_or_pos n with rfl | hpos
    · exact Nat.dvd_zero _
    · have hlog : n.log2 < bits := (Nat.log2_lt (by omega)).mpr hlt
      have hunit : n.log2 + 1 - bits = 0 := by omega
      rw [hunit]
      exact Nat.one_dvd n

/-- A number is rounded to less than `2 ^ m` if it is more than half a unit of
`m`-bit numbers away from it. -/
theorem toSignificant_lt_iff (hbits : 0 < bits) (hm : bits < m) :
    toSignificant bits n < Nat.pow 2 m ↔ n < Nat.pow 2 m - Nat.pow 2 (m - bits - 1) := by
  have hmono : ∀ {a b : Nat}, a ≤ b → Nat.pow 2 a ≤ Nat.pow 2 b :=
    fun h => Nat.pow_le_pow_right (by decide) h
  have hhalf : Nat.pow 2 (m - bits) = 2 * Nat.pow 2 (m - bits - 1) := by
    have hsucc : m - bits = m - bits - 1 + 1 := by omega
    rw [hsucc]
    exact Nat.pow_succ'
  have hdouble : Nat.pow 2 m = 2 * Nat.pow 2 (m - 1) := by
    have hsucc : m = m - 1 + 1 := by omega
    rw [hsucc]
    exact Nat.pow_succ'
  have hlt : n < Nat.pow 2 (n.log2 + 1) := Nat.lt_log2_self
  rcases Nat.lt_trichotomy (n.log2 + 1) m with hfew | hsame | hmany
  · -- fewer bits than `m`: rounding cannot reach it
    have hround := toSignificant_le bits n
    have hpow := hmono (show n.log2 + 1 ≤ m - 1 by omega)
    have hsmall := hmono (show m - bits - 1 ≤ m - 1 by omega)
    have hpos := pow_two_pos (m - 1)
    constructor <;> intro <;> omega
  · have hsplit := pow_two_split (show m - bits ≤ m by omega)
    have heven : Nat.pow 2 (m - (m - bits)) % 2 = 0 := by
      have hsucc : m - (m - bits) = bits - 1 + 1 := by omega
      have hpow : Nat.pow 2 (bits - 1 + 1) = 2 * Nat.pow 2 (bits - 1) := Nat.pow_succ'
      rw [hsucc, hpow]
      exact Nat.mul_mod_right 2 _
    have hin := roundHalfEven_mul_lt_iff (n := n) (pow_two_pos (m - bits - 1)) hhalf heven
      (by rw [← hsplit, ← hsame]; exact hlt)
    rw [← hsplit] at hin
    unfold toSignificant
    simp only [hsame]
    exact hin
  · -- more bits than `m`: the number is beyond it already
    have hne : n ≠ 0 := by
      rintro rfl
      rw [Nat.log2_zero] at hmany
      omega
    have hround := le_toSignificant hbits hne
    have hself : Nat.pow 2 n.log2 ≤ n := Nat.log2_self_le hne
    have hpow := hmono (show m ≤ n.log2 by omega)
    constructor <;> intro <;> omega

end

end SyntaxChunks.Number
