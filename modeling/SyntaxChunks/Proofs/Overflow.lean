/-
# `Proofs.Overflow` — which fractions are beyond double precision

The exponent of a fraction tells between which powers of two it lies
(`le_exponentOf_iff`).  A fraction with the greatest exponent is rounded up to
infinity from half a unit below the next power of two on, because that power
is an even multiple of the unit; so this is the limit for all fractions
(`truncate?_ofFraction_eq_none_iff`).
-/
import SyntaxChunks.Number.Binary64
import SyntaxChunks.Proofs.Rounding

namespace SyntaxChunks.Number.Binary64

section

variable {num den : Nat}

theorem powTwo_ofNat (c : Nat) : powTwo c = (Nat.pow 2 c, 1) := by
  have hneg : (-(c : Int)).toNat = 0 := by omega
  rw [powTwo, hneg, Int.toNat_natCast]

/-! ## The exponent of a fraction -/

theorem lt_mul_pow_of_log2 {k : Nat} (hden : den ≠ 0) (h : num.log2 < den.log2 + k) :
    num < den * Nat.pow 2 k := by
  have hnum : num < Nat.pow 2 (num.log2 + 1) := Nat.lt_log2_self
  have hself : Nat.pow 2 den.log2 ≤ den := Nat.log2_self_le hden
  calc num < Nat.pow 2 (num.log2 + 1) := hnum
    _ ≤ Nat.pow 2 (den.log2 + k) := Nat.pow_le_pow_right (by decide) h
    _ = Nat.pow 2 den.log2 * Nat.pow 2 k := Nat.pow_add ..
    _ ≤ den * Nat.pow 2 k := Nat.mul_le_mul_right _ hself

theorem mul_pow_le_of_log2 {k : Nat} (hnum : num ≠ 0) (h : den.log2 + k < num.log2) :
    den * Nat.pow 2 k ≤ num := by
  have hden : den < Nat.pow 2 (den.log2 + 1) := Nat.lt_log2_self
  have hself : Nat.pow 2 num.log2 ≤ num := Nat.log2_self_le hnum
  calc den * Nat.pow 2 k ≤ Nat.pow 2 (den.log2 + 1) * Nat.pow 2 k :=
        Nat.mul_le_mul_right _ (Nat.le_of_lt hden)
    _ = Nat.pow 2 (den.log2 + 1 + k) := (Nat.pow_add ..).symm
    _ ≤ Nat.pow 2 num.log2 := Nat.pow_le_pow_right (by decide) (by omega)
    _ ≤ num := hself

/-- A fraction has an exponent of `c` or more if it has 53 bits or more in front of `2 ^ c`. -/
theorem le_exponentOf_iff (c : Nat) (hnum : num ≠ 0) (hden : den ≠ 0) :
    (c : Int) ≤ exponentOf num den ↔ den * Nat.pow 2 (c + 52) ≤ num := by
  unfold exponentOf minExponent
  simp only
  rcases Nat.lt_trichotomy num.log2 (den.log2 + (c + 52)) with hless | hsame | hmore
  · have hlt := lt_mul_pow_of_log2 hden hless
    refine iff_of_false (fun h => ?_) (Nat.not_le.mpr hlt)
    split at h <;> omega
  · -- the bit counts leave it open, and the exponent is found by comparing
    have hk : (num.log2 : Int) - den.log2 = (c + 52 : Nat) := by omega
    rw [hk, powTwo_ofNat, Nat.mul_one]
    generalize Nat.pow 2 (c + 52) = bound
    split
    · next hle => exact iff_of_true (by omega) hle
    · next hlt => exact iff_of_false (by omega) hlt
  · have hle := mul_pow_le_of_log2 hnum hmore
    refine iff_of_true ?_ hle
    split <;> omega

/-! ## Rounding to infinity -/

/-- The least number that is rounded beyond double precision: half a unit of its 53 bits below
`2 ^ 1024`. -/
def overflowLimit : Nat :=
  Nat.pow 2 1024 - Nat.pow 2 970

theorem truncate?_ite_eq_none_iff {p : Prop} [Decidable p] {negative : Bool} {m : Nat} {e : Int} :
    (if p then infinity negative else finite negative m e).truncate? = none ↔ p := by
  split
  · next hp => exact iff_of_true rfl hp
  · next hp => exact iff_of_false nofun hp

/-- A fraction is rounded beyond the numbers if its exponent is too great, or gets too great
because its 53 bits are rounded up to a power of two. -/
theorem truncate?_ofFraction_iff_exponent {negative : Bool} (hnum : num ≠ 0) :
    (ofFraction negative num den).truncate? = none ↔
      maxExponent < exponentOf num den ∨ exponentOf num den = maxExponent ∧
        roundHalfEven (num * (powTwo maxExponent).2) (den * (powTwo maxExponent).1)
          = Nat.pow 2 53 := by
  unfold ofFraction
  simp only [if_neg hnum]
  rw [truncate?_ite_eq_none_iff]
  split
  · next hround =>
      constructor
      · intro hlt
        rcases Int.lt_or_le maxExponent (exponentOf num den) with hgreat | hle
        · exact .inl hgreat
        · have hlast : exponentOf num den = maxExponent := by omega
          rw [hlast] at hround
          exact .inr ⟨hlast, hround⟩
      · rintro (hgreat | ⟨hlast, _⟩)
        · exact Int.lt_add_one_of_le (Int.le_of_lt hgreat)
        · exact hlast ▸ Int.lt_succ _
  · next hround =>
      refine ⟨.inl, ?_⟩
      rintro (hgreat | ⟨hlast, hup⟩)
      · exact hgreat
      · rw [← hlast] at hup
        exact absurd hup hround

-- with a name for the exponent no step tries to multiply the powers out
theorem overflowLimit_eq {n : Nat} (hn : 970 = n) :
    overflowLimit = Nat.pow 2 (n + 54) - Nat.pow 2 n := by
  have htop : 1024 = n + 54 := by omega
  unfold overflowLimit
  rw [htop, hn]

theorem pow_add_pow_le (n : Nat) : Nat.pow 2 (n + 53) + Nat.pow 2 n ≤ Nat.pow 2 (n + 54) := by
  have hdouble : Nat.pow 2 (n + 54) = Nat.pow 2 (n + 53) * 2 := Nat.pow_succ ..
  have hless : Nat.pow 2 n ≤ Nat.pow 2 (n + 53) := Nat.pow_le_pow_right (by decide) (by omega)
  omega

theorem overflowLimit_pos : 0 < overflowLimit := by
  obtain ⟨n, hn⟩ : ∃ n, 970 = n := ⟨_, rfl⟩
  have hhalf := pow_add_pow_le n
  have hpos := pow_two_pos (n + 53)
  rw [overflowLimit_eq hn]
  omega

/-- With 53 bits in front of the unit `2 ^ (n + 1)`, rounding gives one bit more from half a unit
below it on. -/
theorem roundHalfEven_eq_iff {n : Nat} (hden : den ≠ 0) (h : num < den * Nat.pow 2 (n + 54)) :
    roundHalfEven num (den * Nat.pow 2 (n + 1)) = Nat.pow 2 53 ↔
      den * (Nat.pow 2 (n + 54) - Nat.pow 2 n) ≤ num := by
  have hpow : ∀ k, den * Nat.pow 2 (n + k) = Nat.pow 2 k * (den * Nat.pow 2 n) := by
    intro k
    calc den * Nat.pow 2 (n + k) = den * (Nat.pow 2 n * Nat.pow 2 k) :=
          congrArg (den * ·) (Nat.pow_add ..)
      _ = Nat.pow 2 k * (den * Nat.pow 2 n) := by rw [← Nat.mul_assoc, Nat.mul_comm]
  have hpos : 0 < den * Nat.pow 2 n := Nat.mul_pos (Nat.pos_of_ne_zero hden) (pow_two_pos n)
  rw [hpow 54] at h
  rw [Nat.mul_sub, hpow 54, hpow 1]
  generalize den * Nat.pow 2 n = half at h hpos
  have hunit : 0 < Nat.pow 2 1 * half := Nat.mul_pos (by decide) hpos
  have hdouble : Nat.pow 2 1 * half = 2 * half := rfl
  have hsplit : Nat.pow 2 53 * (Nat.pow 2 1 * half) = Nat.pow 2 54 * half := by
    rw [← Nat.mul_assoc]
  have htop : num < Nat.pow 2 53 * (Nat.pow 2 1 * half) := hsplit ▸ h
  have hle := Nat.le_of_mul_le_mul_right (roundHalfEven_mul_le hunit htop) hunit
  have hlt := roundHalfEven_mul_lt_iff hpos hdouble (by decide) htop
  rw [Nat.mul_lt_mul_right hunit, hsplit] at hlt
  generalize Nat.pow 2 54 * half = top at hlt ⊢
  omega

/-- From `overflowLimit` on fractions are rounded beyond the numbers. -/
theorem truncate?_ofFraction_eq_none_iff {negative : Bool} (hden : den ≠ 0) :
    (ofFraction negative num den).truncate? = none ↔ den * overflowLimit ≤ num := by
  by_cases hnum : num = 0
  · have hpos := Nat.mul_pos (Nat.pos_of_ne_zero hden) overflowLimit_pos
    refine iff_of_false ?_ (Nat.not_le.mpr (hnum ▸ hpos))
    rw [ofFraction, if_pos hnum]
    exact nofun
  · obtain ⟨n, hn⟩ : ∃ n, 970 = n := ⟨_, rfl⟩
    have hlimit := overflowLimit_eq hn
    have hhalf := pow_add_pow_le n
    have hmax : maxExponent = (n + 1 : Nat) := by
      rw [maxExponent]
      omega
    have hgreat := le_exponentOf_iff (n + 2) hnum hden
    have hlast := le_exponentOf_iff (n + 1) hnum hden
    rw [truncate?_ofFraction_iff_exponent hnum, hmax, powTwo_ofNat, Nat.mul_one, hlimit]
    rcases Nat.lt_or_ge num (den * Nat.pow 2 (n + 54)) with hlt | hge
    · have hnot := mt hgreat.mp (Nat.not_le.mpr hlt)
      rw [← roundHalfEven_eq_iff hden hlt]
      constructor
      · rintro (habove | ⟨_, hround⟩)
        · omega
        · exact hround
      · intro hround
        have hle := (roundHalfEven_eq_iff hden hlt).mp hround
        have hbits : den * Nat.pow 2 (n + 53) ≤ num :=
          Nat.le_trans (Nat.mul_le_mul_left den (by omega)) hle
        have hexp := hlast.mpr hbits
        exact .inr ⟨by omega, hround⟩
    · have hexp := hgreat.mpr hge
      refine iff_of_true (.inl (by omega)) (Nat.le_trans ?_ hge)
      exact Nat.mul_le_mul_left den (Nat.sub_le _ _)

theorem truncate?_scale_eq_none_iff {factor : Nat} {negative : Bool} {m : Nat} {e : Int} :
    ((finite negative m e).scale factor).truncate? = none ↔
      (powTwo e).2 * overflowLimit ≤ m * factor * (powTwo e).1 :=
  truncate?_ofFraction_eq_none_iff (Nat.ne_of_gt (pow_two_pos _))

end

end SyntaxChunks.Number.Binary64
