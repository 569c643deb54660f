import ConstFold.Decimal.Basic
import ConstFold.Proofs.Binary.Monotone
import ConstFold.Proofs.Natural
import Mathlib.Algebra.Order.Field.Power

/-!
# The number of a decimal

A number has many decimals: zeros can be moved between the coefficient and the exponent. Rounding
does not tell them apart.

A decimal without its last digits is a point of a coarser grid, and the number lies between this
point and the next one. The two are its neighbours among *all* decimals of that many digits: on the
grid there is nothing between them, a coarser grid is part of it, and a finer one is out of reach,
since with no more digits its points stay below the leading digit of the number
(`le_lower_or_upper_le`). So a search for decimals of few digits need not look at any others,
provided that what is searched for has no gaps. The decimals that round to one code have none.

## Main definitions

* `Decimal.toRat` — the number of a decimal
* `Decimal.IsReduced` — the decimal of a number that has no trailing zeros
* `HasDigits` — a rational that is a decimal of at most so many digits
* `Decimal.lower`, `Decimal.upper` — the neighbours on the grid without the last digits

## Main results

* `round_congr` — rounding depends on the number alone
* `toRat_normalize`, `isReduced_normalize` — moving all trailing zeros keeps the number
* `round_mono`, `round_eq_of_between` — rounding a decimal is monotone
* `le_lower_or_upper_le` — no decimal of as few digits is between the neighbours
-/

namespace ConstFold

namespace Decimal

def toRat (d : Decimal) : ℚ :=
  d.coefficient * 10 ^ d.exponent

theorem denominator_pos (d : Decimal) : 0 < d.denominator :=
  Nat.pow_pos (by decide)

theorem toRat_eq_div (d : Decimal) : d.toRat = d.numerator / d.denominator := by
  have hexp : (10 : ℚ) ^ d.exponent = 10 ^ d.exponent.toNat / 10 ^ (-d.exponent).toNat := by
    rw [← zpow_natCast, ← zpow_natCast, ← zpow_sub₀ (by decide), Int.toNat_sub_toNat_neg]
  rw [toRat, hexp, numerator, denominator]
  push_cast
  rw [mul_div_assoc]

/-- **Rounding depends on the number alone.** -/
theorem round_congr {d e : Decimal} (h : d.toRat = e.toRat) (f : Format) :
    d.round f = e.round f := by
  have hd : (d.denominator : ℚ) ≠ 0 := by exact_mod_cast d.denominator_pos.ne'
  have he : (e.denominator : ℚ) ≠ 0 := by exact_mod_cast e.denominator_pos.ne'
  rw [toRat_eq_div, toRat_eq_div, div_eq_div_iff hd he] at h
  have hcross : d.numerator * e.denominator = e.numerator * d.denominator := by exact_mod_cast h
  refine roundQuotient_congr d.denominator_pos e.denominator_pos ?_
  rw [Nat.mul_right_comm, hcross, Nat.mul_right_comm]

theorem toRat_normalize (d : Decimal) : d.normalize.toRat = d.toRat := by
  fun_induction normalize d with
  | case1 d h ih =>
    have hten : (d.coefficient : ℚ) = (d.coefficient / 10 : ℕ) * 10 := by
      exact_mod_cast (show d.coefficient = d.coefficient / 10 * 10 by omega)
    rw [ih, toRat, toRat, zpow_add_one₀ (by decide), hten]
    ring
  | case2 d h => rfl

/-- The coefficient has no trailing zeros. Zero is written with the exponent 0. -/
def IsReduced (d : Decimal) : Prop :=
  d.coefficient % 10 ≠ 0 ∨ d = ⟨0, 0⟩

theorem isReduced_normalize {d : Decimal} (h : 0 < d.normalize.coefficient) :
    d.normalize.IsReduced := by
  fun_induction normalize d with
  | case1 d _ ih => exact ih h
  | case2 d hzeros => exact Or.inl fun hmod => hzeros ⟨h.ne', hmod⟩

end Decimal

/-! ### Few digits -/

/-- A decimal of at most `n` significant digits, of either sign. The exponent is arbitrary, so
zeros at either end do not count. -/
def HasDigits (n : ℕ) (q : ℚ) : Prop :=
  ∃ d : Decimal, d.coefficient < 10 ^ n ∧ d.toRat = |q|

namespace Decimal

variable {f : Format} {d e : Decimal}

theorem toRat_nonneg (d : Decimal) : 0 ≤ d.toRat := by
  rw [toRat]
  positivity

theorem hasDigits_toRat {n : ℕ} (h : d.coefficient < 10 ^ n) : HasDigits n d.toRat :=
  ⟨d, h, (abs_of_nonneg d.toRat_nonneg).symm⟩

/-! ### Rounding -/

theorem round_mono (h : d.toRat ≤ e.toRat) (f : Format) : d.round f ≤ e.round f := by
  have hd : (0 : ℚ) < d.denominator := by exact_mod_cast d.denominator_pos
  have he : (0 : ℚ) < e.denominator := by exact_mod_cast e.denominator_pos
  rw [toRat_eq_div, toRat_eq_div, div_le_div_iff₀ hd he] at h
  have hcross : d.numerator * e.denominator ≤ e.numerator * d.denominator := by exact_mod_cast h
  refine roundQuotient_mono d.denominator_pos e.denominator_pos ?_
  calc d.numerator * f.scale * e.denominator = d.numerator * e.denominator * f.scale := by ring
    _ ≤ e.numerator * d.denominator * f.scale := Nat.mul_le_mul_right _ hcross
    _ = e.numerator * f.scale * d.denominator := by ring

/-- The decimals that round to one code have no gaps. -/
theorem round_eq_of_between {c : Decimal} (hlo : d.toRat ≤ c.toRat) (hhi : c.toRat ≤ e.toRat)
    (h : d.round f = e.round f) : c.round f = e.round f :=
  le_antisymm (round_mono hhi f) (h ▸ round_mono hlo f)

/-! ### Neighbours -/

/-- The decimal without its last `drop` digits. -/
def lower (d : Decimal) (drop : ℕ) : Decimal :=
  ⟨d.coefficient / 10 ^ drop, d.exponent + drop⟩

/-- The next one with as few digits after it. -/
def upper (d : Decimal) (drop : ℕ) : Decimal :=
  ⟨d.coefficient / 10 ^ drop + 1, d.exponent + drop⟩

/-- A decimal on the grid, counted in units of the last digit that is not dropped. -/
theorem toRat_grid (c drop : ℕ) (k : ℤ) :
    (⟨c, k + drop⟩ : Decimal).toRat = (c * 10 ^ drop : ℕ) * 10 ^ k := by
  rw [toRat, zpow_add₀ (by decide), zpow_natCast]
  push_cast
  ring

theorem toRat_sub_lower (d : Decimal) (drop : ℕ) :
    d.toRat - (d.lower drop).toRat = (d.coefficient % 10 ^ drop : ℕ) * 10 ^ d.exponent := by
  have hdiv : (d.coefficient : ℚ)
      = (d.coefficient / 10 ^ drop * 10 ^ drop : ℕ) + (d.coefficient % 10 ^ drop : ℕ) := by
    exact_mod_cast (Nat.div_add_mod' d.coefficient (10 ^ drop)).symm
  rw [lower, toRat_grid, toRat, ← sub_mul, hdiv]
  ring

theorem upper_sub_toRat (d : Decimal) (drop : ℕ) :
    (d.upper drop).toRat - d.toRat
      = (10 ^ drop - (d.coefficient % 10 ^ drop : ℕ)) * 10 ^ d.exponent := by
  have hstep : (d.upper drop).toRat = (d.lower drop).toRat + 10 ^ drop * 10 ^ d.exponent := by
    rw [upper, lower, toRat_grid, toRat_grid]
    push_cast
    ring
  rw [hstep, sub_mul, ← toRat_sub_lower]
  ring

theorem lower_le (d : Decimal) (drop : ℕ) : (d.lower drop).toRat ≤ d.toRat := by
  have h := toRat_sub_lower d drop
  have hnonneg : (0 : ℚ) ≤ (d.coefficient % 10 ^ drop : ℕ) * 10 ^ d.exponent := by positivity
  linarith

theorem le_upper (d : Decimal) (drop : ℕ) : d.toRat ≤ (d.upper drop).toRat := by
  have h := upper_sub_toRat d drop
  have hmod : ((d.coefficient % 10 ^ drop : ℕ) : ℚ) ≤ 10 ^ drop := by
    exact_mod_cast (Nat.mod_lt d.coefficient (Nat.pow_pos (by decide))).le
  have hnonneg := mul_nonneg (sub_nonneg.mpr hmod) (zpow_nonneg (by decide : (0 : ℚ) ≤ 10)
    d.exponent)
  linarith

/-! ### Distances -/

/-- Below the lower neighbour a decimal is no nearer than that one. -/
theorem abs_lower_sub_le {drop : ℕ} (h : e.toRat ≤ (d.lower drop).toRat) :
    |(d.lower drop).toRat - d.toRat| ≤ |e.toRat - d.toRat| := by
  have hlo := lower_le d drop
  rw [abs_of_nonpos (by linarith), abs_of_nonpos (by linarith)]
  linarith

theorem abs_upper_sub_le {drop : ℕ} (h : (d.upper drop).toRat ≤ e.toRat) :
    |(d.upper drop).toRat - d.toRat| ≤ |e.toRat - d.toRat| := by
  have hhi := le_upper d drop
  rw [abs_of_nonneg (by linarith), abs_of_nonneg (by linarith)]
  linarith

/-- Which neighbour is nearer is seen from the digits that are dropped. -/
theorem abs_lower_sub_le_abs_upper_sub_iff (d : Decimal) (drop : ℕ) :
    |(d.lower drop).toRat - d.toRat| ≤ |(d.upper drop).toRat - d.toRat| ↔
      2 * (d.coefficient % 10 ^ drop) ≤ 10 ^ drop := by
  have hunit : (0 : ℚ) < 10 ^ d.exponent := by positivity
  rw [abs_sub_comm, abs_of_nonneg (sub_nonneg.mpr (lower_le d drop)),
    abs_of_nonneg (sub_nonneg.mpr (le_upper d drop)), toRat_sub_lower, upper_sub_toRat,
    mul_le_mul_iff_left₀ hunit, le_sub_iff_add_le, ← two_mul]
  exact_mod_cast Iff.rfl

theorem abs_upper_sub_le_abs_lower_sub_iff (d : Decimal) (drop : ℕ) :
    |(d.upper drop).toRat - d.toRat| ≤ |(d.lower drop).toRat - d.toRat| ↔
      10 ^ drop ≤ 2 * (d.coefficient % 10 ^ drop) := by
  have hunit : (0 : ℚ) < 10 ^ d.exponent := by positivity
  rw [abs_sub_comm (d.lower drop).toRat, abs_of_nonneg (sub_nonneg.mpr (lower_le d drop)),
    abs_of_nonneg (sub_nonneg.mpr (le_upper d drop)), toRat_sub_lower, upper_sub_toRat,
    mul_le_mul_iff_left₀ hunit, sub_le_iff_le_add, ← two_mul]
  exact_mod_cast Iff.rfl

/-! ### Digits -/

def digitCount (d : Decimal) : ℕ :=
  Radix.digitCount d.coefficient

theorem coefficient_lt (d : Decimal) : d.coefficient < 10 ^ d.digitCount := by
  rw [digitCount, Radix.digitCount_eq_length_write]
  exact Radix.lt_pow_length_write (by decide) _

theorem pow_digitCount_le (h : 0 < d.coefficient) :
    10 ^ (d.digitCount - 1) ≤ d.coefficient := by
  rw [digitCount, Radix.digitCount_eq_length_write]
  exact Radix.pow_length_write_le (by decide) h

variable {drop : ℕ} (hdrop : drop < d.digitCount)
include hdrop

theorem hasDigits_lower : HasDigits (d.digitCount - drop) (d.lower drop).toRat := by
  refine hasDigits_toRat ?_
  rw [lower, Nat.div_lt_iff_lt_mul (Nat.pow_pos (by decide)), ← Nat.pow_add,
    Nat.sub_add_cancel hdrop.le]
  exact d.coefficient_lt

/-- The upper neighbour may have one digit more, but then it is a power of ten. -/
theorem hasDigits_upper : HasDigits (d.digitCount - drop) (d.upper drop).toRat := by
  obtain ⟨n, hn⟩ : ∃ n, d.digitCount - drop = n + 1 := Nat.exists_eq_add_of_le' (by omega)
  have hlt : d.coefficient / 10 ^ drop < 10 ^ (n + 1) := by
    rw [Nat.div_lt_iff_lt_mul (Nat.pow_pos (by decide)), ← hn, ← Nat.pow_add,
      Nat.sub_add_cancel hdrop.le]
    exact d.coefficient_lt
  rw [hn]
  rcases Nat.lt_or_eq_of_le (Nat.succ_le_of_lt hlt) with hfew | hpow
  · exact hasDigits_toRat hfew
  · have hone : (d.upper drop).toRat = (⟨1, d.exponent + drop + (n + 1 : ℕ)⟩ : Decimal).toRat := by
      rw [toRat_grid, toRat, upper, ← hpow, Nat.one_mul]
    rw [hone]
    exact hasDigits_toRat (Nat.one_lt_pow (Nat.succ_ne_zero n) (by decide))

/-- **No decimal with as few digits is between the neighbours.** Above the last digit that is kept
such a decimal is on their grid, or it is so small that it is below both. -/
theorem le_lower_or_upper_le (hpos : 0 < d.coefficient)
    (he : e.coefficient < 10 ^ (d.digitCount - drop)) :
    e.toRat ≤ (d.lower drop).toRat ∨ (d.upper drop).toRat ≤ e.toRat := by
  have hunit : (0 : ℚ) < 10 ^ (d.exponent + drop) := by positivity
  rcases le_or_gt (d.exponent + drop) e.exponent with hle | hlt
  · -- a point of the grid
    obtain ⟨j, hj⟩ : ∃ j : ℕ, e.exponent = d.exponent + drop + j := Int.le.dest hle |>.imp
      fun _ h => h.symm
    have hpoint : e.toRat = (e.coefficient * 10 ^ j : ℕ) * 10 ^ (d.exponent + drop) := by
      rw [← toRat_grid, ← hj]
    rw [hpoint, lower, upper, toRat, toRat]
    rcases Nat.lt_or_ge (d.coefficient / 10 ^ drop) (e.coefficient * 10 ^ j) with h | h
    · right
      exact mul_le_mul_of_nonneg_right (by exact_mod_cast h) hunit.le
    · left
      exact mul_le_mul_of_nonneg_right (by exact_mod_cast h) hunit.le
  · -- below the leading digit of `d`
    left
    obtain ⟨n, hn⟩ : ∃ n, d.digitCount - drop = n + 1 := Nat.exists_eq_add_of_le' (by omega)
    have hlead : 10 ^ n ≤ d.coefficient / 10 ^ drop := by
      rw [Nat.le_div_iff_mul_le (Nat.pow_pos (by decide)), ← Nat.pow_add]
      have hexp : n + drop = d.digitCount - 1 := by omega
      rw [hexp]
      exact pow_digitCount_le hpos
    have hstep : (10 : ℚ) ^ e.exponent * 10 ≤ 10 ^ (d.exponent + drop) := by
      rw [← zpow_add_one₀ (by decide)]
      exact zpow_le_zpow_right₀ (by decide) hlt
    rw [hn] at he
    calc e.toRat ≤ (10 ^ (n + 1) : ℕ) * 10 ^ e.exponent :=
          mul_le_mul_of_nonneg_right (by exact_mod_cast he.le) (by positivity)
      _ = 10 ^ n * (10 ^ e.exponent * 10) := by
          push_cast
          ring
      _ ≤ 10 ^ n * 10 ^ (d.exponent + drop) := mul_le_mul_of_nonneg_left hstep (by positivity)
      _ ≤ (d.coefficient / 10 ^ drop : ℕ) * 10 ^ (d.exponent + drop) :=
          mul_le_mul_of_nonneg_right (by exact_mod_cast hlead) hunit.le

end Decimal

end ConstFold
