import ConstFold.Binary.Basic
import ConstFold.Proofs.Binary.Magnitude
import Mathlib.Algebra.Order.Field.Basic
import Mathlib.Algebra.Order.Field.Rat
import Mathlib.Algebra.Order.Monoid.WithTop
import Mathlib.Data.Int.ConditionallyCompleteOrder

/-!
# The exact number of a datum

A finite datum stands for a rational number, read off its three fields as the standard says:

```
± significand * 2 ^ (max exponentField 1 - bias - fraction)
```

where the significand is the fraction field, with a leading 1 unless the exponent field is empty.
An infinity lies beyond all rationals on its side. This reading does not mention codes, magnitudes
or quanta; that those count the same numbers is `toRat_eq_quanta_div`, and that the order of ranks
is the order of the numbers is `rank_lt_iff`.

## Main definitions

* `Binary.exponentField`, `Binary.fractionField`, `Binary.significand`
* `Binary.toRat` — the number of a finite datum; nothing is said about the others
* `Binary.toExtended` — the same with the infinities at the ends; nothing is said about NaNs

## Main results

* `Binary.toRat_eq_sign_mul`, `Binary.toRat_eq_quanta_div`
* `Binary.rank_lt_iff`, `Binary.rank_eq_iff` — ranks are ordered as the numbers
-/

namespace ConstFold

namespace Binary

variable {f : Format}

/-! ### Fields -/

def exponentField (b : Binary f) : ℕ :=
  b.code / 2 ^ f.fraction

def fractionField (b : Binary f) : ℕ :=
  b.code % 2 ^ f.fraction

/-- The fraction field with its leading digit: 1, or 0 where the exponent field is empty. -/
def significand (b : Binary f) : ℕ :=
  (if b.exponentField = 0 then 0 else 2 ^ f.fraction) + b.fractionField

/-- The number 1 with the sign of a datum. -/
def sign (b : Binary f) : ℚ :=
  if b.negative then -1 else 1

/-- The exact number of a finite datum, as the standard has it: the significand, scaled by the
exponent field less the bias. An empty exponent field counts as 1, since subnormal data are as far
apart as the least normal ones. -/
def toRat (b : Binary f) : ℚ :=
  b.sign * b.significand * 2 ^ ((max b.exponentField 1 : ℤ) - f.bias - f.fraction)

/-- The exact number of a datum that is no NaN, the infinities being at the ends. The two zeros
have one number, and they are the only data that share one. -/
def toExtended (b : Binary f) : WithBot (WithTop ℚ) :=
  if b.isInfinite then if b.negative then ⊥ else ⊤
  else ((b.toRat : WithTop ℚ) : WithBot (WithTop ℚ))

/-- A significand and its code are both even or both odd. -/
theorem significand_mod_two (b : Binary f) : b.significand % 2 = b.code % 2 := by
  obtain ⟨k, hk⟩ := f.exists_two_pow_fraction
  have hcode := Nat.div_add_mod b.code (2 ^ f.fraction)
  rw [hk, Nat.mul_assoc] at hcode
  rw [significand, fractionField, hk]
  split_ifs <;> omega

/-! ### The number in quanta -/

theorem magnitude_code (b : Binary f) :
    magnitude f b.code = b.significand * 2 ^ (max b.exponentField 1 - 1) := by
  rcases Nat.eq_zero_or_pos b.exponentField with h | h
  · have h' : b.code / 2 ^ f.fraction = 0 := h
    simp [magnitude, significand, fractionField, h, h']
  · have h' : b.code / 2 ^ f.fraction ≠ 0 := h.ne'
    rw [significand, if_neg h.ne', Nat.max_eq_left h]
    simp [magnitude, exponentField, fractionField, h']

theorem scale_cast_pos (f : Format) : (0 : ℚ) < f.scale := by
  exact_mod_cast f.scale_pos

/-- Counting in quanta is counting in units of `1 / scale`. -/
theorem toRat_eq_sign_mul (b : Binary f) : b.toRat = b.sign * (magnitude f b.code / f.scale) := by
  have hb := f.bias_pos
  have hp := f.fraction_pos
  have hone : 1 ≤ max b.exponentField 1 := Nat.le_max_right ..
  have hexp : (max b.exponentField 1 : ℤ) - f.bias - f.fraction
      = ((max b.exponentField 1 - 1 : ℕ) : ℤ) - f.quantumExponent := by
    rw [Format.quantumExponent]
    omega
  rw [toRat, magnitude_code, hexp, zpow_sub₀ two_ne_zero, zpow_natCast, zpow_natCast, Format.scale]
  push_cast
  ring

theorem toRat_eq_quanta_div (b : Binary f) : b.toRat = b.quanta / f.scale := by
  rw [toRat_eq_sign_mul, sign, quanta]
  split_ifs <;> push_cast <;> ring

/-- The sign bit of a datum that is not zero is the sign of its number. -/
theorem negative_eq_of_quanta {b : Binary f} (h : b.quanta ≠ 0) :
    b.negative = decide (b.quanta < 0) := by
  rw [quanta] at h ⊢
  cases hs : b.negative
  · simp
  · rw [hs] at h
    simpa [Nat.pos_iff_ne_zero] using h

theorem abs_sign (b : Binary f) : |b.sign| = 1 := by
  rw [sign]
  split_ifs <;> simp

theorem abs_toRat (b : Binary f) : |b.toRat| = magnitude f b.code / f.scale := by
  rw [toRat_eq_sign_mul, abs_mul, abs_sign, one_mul,
    abs_of_nonneg (div_nonneg (Nat.cast_nonneg _) (scale_cast_pos f).le)]

/-! ### The order of ranks -/

/-- The quanta at a rank: negative ranks count below zero. -/
def quantaOfRank (f : Format) (r : ℤ) : ℤ :=
  if r < 0 then -magnitude f r.natAbs else magnitude f r.natAbs

theorem quantaOfRank_strictMono (f : Format) : StrictMono (quantaOfRank f) := by
  intro r s h
  have hmono := magnitude_strictMono f
  rw [quantaOfRank, quantaOfRank]
  split_ifs with hr hs hs
  · have := hmono (show s.natAbs < r.natAbs by omega)
    omega
  · have := hmono (show 0 < r.natAbs by omega)
    omega
  · omega
  · have := hmono (show r.natAbs < s.natAbs by omega)
    omega

theorem quanta_eq_ofRank (b : Binary f) : b.quanta = quantaOfRank f b.rank := by
  rw [quanta, quantaOfRank, rank]
  rcases Nat.eq_zero_or_pos b.code with h | h
  · simp [h]
  · cases b.negative
    · simp
    · simp [Nat.pos_iff_ne_zero.mp h]

/-- The extended number at a rank. It is strictly monotone on the ranks that data have, which is why
comparing ranks is comparing numbers. -/
def extendedOfRank (f : Format) (r : ℤ) : WithBot (WithTop ℚ) :=
  if r = -f.infinityCode then ⊥
  else if r = f.infinityCode then ⊤
  else ((quantaOfRank f r / f.scale : ℚ) : WithTop ℚ)

theorem extendedOfRank_strictMonoOn (f : Format) :
    StrictMonoOn (extendedOfRank f) (Set.Icc (-f.infinityCode) f.infinityCode) := by
  rintro r ⟨hr, _⟩ s ⟨_, hs⟩ h
  rw [extendedOfRank, extendedOfRank, if_neg (show s ≠ -f.infinityCode by omega),
    if_neg (show r ≠ f.infinityCode by omega)]
  split_ifs
  · exact bot_lt_top
  · exact WithBot.bot_lt_coe _
  · exact WithBot.coe_lt_coe.mpr (WithTop.coe_lt_top _)
  · rw [WithBot.coe_lt_coe, WithTop.coe_lt_coe]
    exact div_lt_div_of_pos_right (by exact_mod_cast quantaOfRank_strictMono f h) (scale_cast_pos f)

theorem rank_mem {b : Binary f} (h : b.isNaN = false) :
    b.rank ∈ Set.Icc (-(f.infinityCode : ℤ)) f.infinityCode := by
  have := code_le_of_isNaN h
  rw [Set.mem_Icc, rank]
  split_ifs <;> omega

theorem toExtended_of_isFinite {b : Binary f} (h : b.isFinite = true) :
    b.toExtended = ((b.toRat : WithTop ℚ) : WithBot (WithTop ℚ)) := by
  rw [toExtended, isInfinite_of_isFinite h]
  rfl

theorem toExtended_eq_ofRank {b : Binary f} (h : b.isNaN = false) :
    b.toExtended = extendedOfRank f b.rank := by
  have hpos := f.infinityCode_pos
  rcases isInfinite_or_isFinite h with hi | hfin
  · have hcode : b.code = f.infinityCode := by simpa [isInfinite] using hi
    simp only [toExtended, hi, extendedOfRank, rank, hcode, if_true]
    split_ifs <;> first | rfl | omega
  · have hcode := code_lt_of_isFinite hfin
    have hbot : b.rank ≠ -f.infinityCode := by rw [rank]; split_ifs <;> omega
    have htop : b.rank ≠ f.infinityCode := by rw [rank]; split_ifs <;> omega
    rw [toExtended_of_isFinite hfin, extendedOfRank, if_neg hbot, if_neg htop, ← quanta_eq_ofRank,
      ← toRat_eq_quanta_div]

section

variable {a b : Binary f} (ha : a.isNaN = false) (hb : b.isNaN = false)
include ha hb

/-- **Ranks are ordered as the numbers they stand for.** Data are compared by their ranks, without
any arithmetic; this is what makes it a comparison of numbers. -/
theorem rank_lt_iff : a.rank < b.rank ↔ a.toExtended < b.toExtended := by
  rw [toExtended_eq_ofRank ha, toExtended_eq_ofRank hb,
    (extendedOfRank_strictMonoOn f).lt_iff_lt (rank_mem ha) (rank_mem hb)]

theorem rank_eq_iff : a.rank = b.rank ↔ a.toExtended = b.toExtended := by
  rw [toExtended_eq_ofRank ha, toExtended_eq_ofRank hb,
    (extendedOfRank_strictMonoOn f).injOn.eq_iff (rank_mem ha) (rank_mem hb)]

end

end Binary

end ConstFold
