import ConstFold.Proofs.Binary.Convert
import ConstFold.Proofs.Binary.Exact
import Mathlib.Tactic.Positivity

/-!
# Rounding a rational to a datum

`RoundsTo q r` is the rule of the standard for rounding to nearest even: from `overflowBound` on,
on either side, `r` is infinite; below it, `r` is finite, no finite datum is nearer to `q`, and if
one with another number is as near then the significand of `r` is even. The sign of `r` is the
sign of `q`. Only for `q = 0` the sign is left open: that one is up to the operation.

An integer and a finite datum of another format become a datum in the same way: the exact number, as
a quotient of quanta of the destination, goes through `roundQuotient`, and the sign is kept. So both
conversions obey `RoundsTo`, each by one rounding of the exact number and without a stop on the way.

The two ends of a format are then known as well. Words are far below `overflowBound`, which is past
`2 ^ bias`. At the other end the midpoint between zero and the quantum is a tie, and zero is even.

## Main definitions

* `Format.overflowBound` — the midpoint between the greatest finite number and the power of two
  above it
* `Binary.RoundsTo`
* `Binary.IsNearestEven` — the finite data among which `RoundsTo` chooses

## Main results

* `roundsTo_ofCode_roundQuotient` — `roundQuotient` rounds by this rule
* `RoundsTo.unique` — and the rule leaves no choice but the sign of a zero
* `roundsTo_ofInt`, `roundsTo_convert` — conversions round to nearest even
* `RoundsTo.isZero_iff` — what underflows to zero
* `isNearestEven_ofWord` — a word is never rounded to infinity
-/

namespace ConstFold

/-- The least number that overflows: half a unit above the greatest finite one. -/
def Format.overflowBound (f : Format) : ℚ :=
  (2 - 1 / 2 ^ (f.fraction + 1)) * 2 ^ f.bias

/-- The greatest finite code. -/
def Format.maxCode (f : Format) : ℕ :=
  f.infinityCode - 1

namespace Format

variable (f : Format)

theorem maxCode_add_one : f.maxCode + 1 = f.infinityCode :=
  Nat.sub_add_cancel f.infinityCode_pos

theorem maxCode_lt : f.maxCode < f.infinityCode :=
  Nat.sub_lt f.infinityCode_pos Nat.one_pos

theorem infinityCode_even : f.infinityCode % 2 = 0 := by
  obtain ⟨k, hk⟩ := f.exists_two_pow_fraction
  rw [infinityCode, hk, Nat.mul_left_comm, Nat.mul_mod_right]

/-- The bound is the midpoint of the magnitudes at `maxCode` and `infinityCode`. -/
theorem two_mul_overflowBound :
    2 * (f.overflowBound * f.scale) = magnitude f f.maxCode + magnitude f f.infinityCode := by
  have hb := f.bias_pos
  have hp := Nat.two_pow_pos (f.fraction + 1)
  -- both codes are in the last piece of the finite data
  obtain ⟨s, hs⟩ : ∃ s, 2 * f.bias = s + 1 := Nat.exists_eq_add_of_le' (by omega)
  have hinf : f.infinityCode = s * 2 ^ f.fraction + 2 ^ (f.fraction + 1) := by
    rw [infinityCode, f.two_pow_exponent, hs, Nat.pow_succ, Nat.mul_comm _ 2, ← Nat.add_mul]
    rfl
  have hmax : f.maxCode = s * 2 ^ f.fraction + (2 ^ (f.fraction + 1) - 1) := by
    rw [maxCode, hinf]
    omega
  have hle : 2 ^ f.fraction ≤ 2 ^ (f.fraction + 1) - 1 := by
    have := Nat.two_pow_pos f.fraction
    rw [Nat.pow_succ]
    omega
  rw [hmax, hinf, magnitude_piece ⟨Nat.sub_le .., Or.inr hle⟩,
    magnitude_piece ⟨le_rfl, Or.inr (hle.trans (Nat.sub_le ..))⟩, overflowBound, scale,
    Nat.cast_mul, Nat.cast_mul, Nat.cast_sub hp]
  have hexp : f.bias + f.quantumExponent = s + f.fraction := by
    rw [quantumExponent]
    omega
  have hpow : (2 : ℚ) ^ f.bias * 2 ^ f.quantumExponent = 2 ^ s * 2 ^ f.fraction := by
    rw [← pow_add, hexp, pow_add]
  push_cast
  rw [mul_assoc (2 - _), hpow, pow_succ]
  field_simp
  ring

end Format

namespace Binary

variable {f : Format}

/-- The datum to which the standard rounds a rational number, except that the sign of a zero is
left open. -/
structure RoundsTo (q : ℚ) (r : Binary f) : Prop where
  overflow : f.overflowBound ≤ |q| → r.isInfinite = true
  finite : |q| < f.overflowBound → r.isFinite = true
  nearest : |q| < f.overflowBound → ∀ g : Binary f, g.isFinite = true →
    |r.toRat - q| ≤ |g.toRat - q|
  even : |q| < f.overflowBound → ∀ g : Binary f, g.isFinite = true → g.toRat ≠ r.toRat →
    |g.toRat - q| = |r.toRat - q| → r.significand % 2 = 0
  negative : q ≠ 0 → r.negative = decide (q < 0)

/-! ### Distances in quanta -/

/-- The distance of a datum to a number is at least the distance of their magnitudes. -/
theorem le_abs_sub_mul_scale (g : Binary f) (q : ℚ) :
    |(magnitude f g.code : ℚ) - |q| * f.scale| ≤ |g.toRat - q| * f.scale := by
  have hscale := scale_cast_pos f
  have hmag : (magnitude f g.code : ℚ) = |g.toRat| * f.scale := by
    rw [abs_toRat, div_mul_cancel₀ _ hscale.ne']
  rw [hmag, ← sub_mul, abs_mul, abs_of_pos hscale]
  exact mul_le_mul_of_nonneg_right (abs_abs_sub_abs_le _ _) hscale.le

/-- It is that distance if the signs agree. -/
theorem abs_sub_mul_scale {r : Binary f} {q : ℚ} (hs : q ≠ 0 → r.negative = decide (q < 0)) :
    |r.toRat - q| * f.scale = |(magnitude f r.code : ℚ) - |q| * f.scale| := by
  have hscale := scale_cast_pos f
  have hmag : (magnitude f r.code : ℚ) = |r.toRat| * f.scale := by
    rw [abs_toRat, div_mul_cancel₀ _ hscale.ne']
  have hnonneg : (0 : ℚ) ≤ magnitude f r.code / f.scale := by positivity
  rw [hmag, ← sub_mul, abs_mul, abs_of_pos hscale]
  congr 1
  rcases lt_trichotomy q 0 with hq | rfl | hq
  · have hr : r.toRat = -|r.toRat| := by
      rw [abs_toRat, toRat_eq_sign_mul, sign, hs hq.ne, decide_eq_true hq]
      simp
    rw [abs_of_neg hq, hr, abs_neg, abs_abs, ← abs_neg]
    congr 1
    ring
  · simp
  · have hr : r.toRat = |r.toRat| := by
      rw [abs_toRat, toRat_eq_sign_mul, sign, hs hq.ne', decide_eq_false hq.le.not_gt]
      simp
    rw [abs_of_pos hq, ← hr]

/-- At every code there is a finite datum on the side of `q`. -/
theorem exists_isFinite_of_code (q : ℚ) {c : ℕ} (hc : c < f.infinityCode) :
    ∃ g : Binary f, g.isFinite = true ∧ g.code = c ∧
      |g.toRat - q| * f.scale = |(magnitude f c : ℚ) - |q| * f.scale| := by
  have hcode : (ofCode f (decide (q < 0)) c).code = c := code_ofCode_of_lt hc.le
  refine ⟨ofCode f (decide (q < 0)) c, by simpa [isFinite, hcode] using hc, hcode, ?_⟩
  rw [abs_sub_mul_scale fun _ => negative_ofCode .., hcode]

/-! ### The code of a rounded datum -/

/-- Numbers overflow exactly if the code nearest to them is past the finite ones. -/
theorem infinityCode_le_iff {q : ℚ} {code : ℕ} (h : IsNearest f (|q| * f.scale) code) :
    f.infinityCode ≤ code ↔ f.overflowBound ≤ |q| := by
  have hiff := h.succ_le_iff (c := f.maxCode) (by rw [f.maxCode_add_one, f.infinityCode_even])
  rw [f.maxCode_add_one, ← f.two_mul_overflowBound, mul_le_mul_iff_right₀ two_pos,
    mul_le_mul_iff_left₀ (scale_cast_pos f)] at hiff
  exact hiff

/-- **`roundQuotient` rounds as the standard says.** The quotient is the magnitude of the number
in quanta. -/
theorem roundsTo_ofCode_roundQuotient {q : ℚ} {s : Bool} {num den : ℕ} (hden : 0 < den)
    (hq : (num : ℚ) / den = |q| * f.scale) (hs : q ≠ 0 → s = decide (q < 0)) :
    RoundsTo q (ofCode f s (roundQuotient f num den)) := by
  have hnear := isNearest_roundUnbounded f num hden
  rw [hq] at hnear
  have hover := infinityCode_le_iff hnear
  have hsign : q ≠ 0 → (ofCode f s (roundQuotient f num den)).negative = decide (q < 0) := by
    rwa [negative_ofCode]
  have hcode := code_ofCode_of_lt (s := s) (roundQuotient_le f num den)
  generalize ofCode f s (roundQuotient f num den) = r at hsign hcode ⊢
  rw [roundQuotient_eq_min] at hcode
  generalize roundUnbounded f num den = u at hnear hover hcode
  have hscale := scale_cast_pos f
  -- below the bound nothing is cut off
  have hu : |q| < f.overflowBound → r.code = u := fun h => by
    rw [hcode, Nat.min_eq_left (le_of_not_ge (hover.not.mpr h.not_ge))]
  refine ⟨fun h => ?_, fun h => ?_, fun h g hg => ?_, fun h g hg hne heq => ?_, hsign⟩
  · rw [isInfinite, hcode, Nat.min_eq_right (hover.mpr h), beq_self_eq_true]
  · rw [isFinite, hu h]
    exact decide_eq_true (Nat.lt_of_not_le (hover.not.mpr h.not_ge))
  · rw [← mul_le_mul_iff_left₀ hscale, abs_sub_mul_scale hsign, hu h]
    exact (hnear.le g.code).trans (le_abs_sub_mul_scale g q)
  · rw [significand_mod_two, hu h]
    have hmag : |(magnitude f g.code : ℚ) - |q| * f.scale|
        = |(magnitude f u : ℚ) - |q| * f.scale| := by
      refine le_antisymm ?_ (hnear.le g.code)
      rw [← hu h, ← abs_sub_mul_scale hsign, ← heq]
      exact le_abs_sub_mul_scale g q
    rcases eq_or_ne g.code u with hc | hc
    · -- the datum with the other sign is as near only to zero
      rcases abs_eq_abs.mp heq with h₁ | h₁
      · exact absurd (sub_left_injective h₁) hne
      · have habs : |g.toRat| = |r.toRat| := by rw [abs_toRat, abs_toRat, hc, hu h]
        have hz : q = 0 := by
          rcases abs_eq_abs.mp habs with h₂ | h₂
          · exact absurd h₂ hne
          · linarith
        have hzero : IsNearest f (|q| * f.scale) 0 := by
          simpa [hz] using IsNearest.of_magnitude f 0
        rw [hnear.unique hzero]
    · exact hnear.even g.code hc hmag

/-! ### Uniqueness -/

namespace RoundsTo

variable {q : ℚ} {r r' : Binary f}

/-- Rounding among the finite data is rounding among all codes. -/
theorem isNearest (h : RoundsTo q r) (hq : |q| < f.overflowBound) :
    IsNearest f (|q| * f.scale) r.code := by
  have hscale := scale_cast_pos f
  have hmid := f.two_mul_overflowBound
  have hbelow : 2 * (|q| * f.scale) < magnitude f f.maxCode + magnitude f f.infinityCode := by
    rw [← hmid]
    exact mul_lt_mul_of_pos_left (mul_lt_mul_of_pos_right hq hscale) two_pos
  have hle : ∀ c < f.infinityCode,
      |(magnitude f r.code : ℚ) - |q| * f.scale| ≤ |(magnitude f c : ℚ) - |q| * f.scale| := by
    intro c hc
    obtain ⟨g, hg, _, hdist⟩ := exists_isFinite_of_code q hc
    rw [← hdist, ← abs_sub_mul_scale h.negative]
    exact mul_le_mul_of_nonneg_right (h.nearest hq g hg) hscale.le
  -- the codes past the finite ones are all farther than the last of these
  have hpast : ∀ c, f.infinityCode ≤ c →
      |(magnitude f r.code : ℚ) - |q| * f.scale| < |(magnitude f c : ℚ) - |q| * f.scale| := by
    intro c hc
    have hmax := hle f.maxCode f.maxCode_lt
    have hmono : (magnitude f f.infinityCode : ℚ) ≤ magnitude f c := magnitude_cast_le hc
    have hstep : (magnitude f f.maxCode : ℚ) < magnitude f f.infinityCode :=
      magnitude_cast_lt f.maxCode_lt
    refine lt_of_le_of_lt hmax (lt_of_lt_of_le ?_ (le_abs_self _))
    rw [abs_lt]
    constructor <;> linarith
  refine ⟨fun c => ?_, fun c hc heq => ?_⟩
  · rcases Nat.lt_or_ge c f.infinityCode with hlt | hge
    · exact hle c hlt
    · exact (hpast c hge).le
  · rcases Nat.lt_or_ge c f.infinityCode with hlt | hge
    · obtain ⟨g, hg, hgc, hdist⟩ := exists_isFinite_of_code q hlt
      rw [← significand_mod_two]
      refine h.even hq g hg (fun hsame => hc ?_) ?_
      · have habs : |g.toRat| = |r.toRat| := by rw [hsame]
        rw [abs_toRat, abs_toRat, div_left_inj' hscale.ne', hgc] at habs
        exact (magnitude_strictMono f).injective (by exact_mod_cast habs)
      · rw [← mul_left_inj' hscale.ne', hdist, abs_sub_mul_scale h.negative, heq]
    · exact absurd heq (hpast c hge).ne'

/-- **Rounding leaves no choice but the sign of a zero.** -/
theorem unique (h : RoundsTo q r) (h' : RoundsTo q r') (hs : q = 0 → r.negative = r'.negative) :
    r = r' := by
  have hsign : r.negative = r'.negative := by
    rcases eq_or_ne q 0 with hq | hq
    · exact hs hq
    · rw [h.negative hq, h'.negative hq]
  refine eq_of_negative_of_code hsign ?_
  rcases lt_or_ge |q| f.overflowBound with hq | hq
  · exact (h.isNearest hq).unique (h'.isNearest hq)
  · have hr : r.code = f.infinityCode := by simpa [isInfinite] using h.overflow hq
    have hr' : r'.code = f.infinityCode := by simpa [isInfinite] using h'.overflow hq
    rw [hr, hr']

end RoundsTo

end Binary

/-! ### The ends of a format -/

/-- The greatest finite power of two does not overflow. -/
theorem Format.two_pow_bias_lt_overflowBound (f : Format) : (2 : ℚ) ^ f.bias < f.overflowBound := by
  have hhalf : (1 : ℚ) / 2 ^ (f.fraction + 1) < 1 := by
    rw [div_lt_one (by positivity)]
    exact one_lt_pow₀ one_lt_two (Nat.succ_ne_zero _)
  rw [overflowBound]
  exact lt_mul_of_one_lt_left (by positivity) (by linarith)

theorem overflowBound_binary32 : Format.binary32.overflowBound = 2 ^ 128 - 2 ^ 103 := by
  norm_num [Format.overflowBound, Format.bias, Format.binary32]

/-- The number of a word with no more bits than the bias does not overflow. -/
theorem abs_toInt_lt_overflowBound {f : Format} {w : ℕ} (hw : w ≤ f.bias) (v : BitVec w) :
    |(v.toInt : ℚ)| < f.overflowBound := by
  calc |(v.toInt : ℚ)| ≤ 2 ^ w := by exact_mod_cast Binary.abs_toInt_le v
    _ ≤ 2 ^ f.bias := pow_le_pow_right₀ one_le_two hw
    _ < f.overflowBound := f.two_pow_bias_lt_overflowBound

namespace Binary

variable {f : Format}

/-- **Half a quantum underflows, and nothing above it.** Half a quantum is a tie between the codes
0 and 1, and 0 is the even one. -/
theorem RoundsTo.isZero_iff {q : ℚ} {r : Binary f} (h : RoundsTo q r) :
    r.isZero = true ↔ 2 * (|q| * f.scale) ≤ 1 := by
  rcases lt_or_ge |q| f.overflowBound with hq | hq
  · have hcode := (h.isNearest hq).le_iff (c := 0) rfl
    rw [Nat.le_zero, magnitude_zero, magnitude_one, Nat.cast_zero, Nat.cast_one, zero_add] at hcode
    rw [isZero, beq_iff_eq, hcode]
  · have hone : (1 : ℚ) ≤ |q| :=
      (one_le_pow₀ one_le_two).trans (f.two_pow_bias_lt_overflowBound.le.trans hq)
    have hscale : (1 : ℚ) ≤ f.scale := by exact_mod_cast f.scale_pos
    have hle : 1 ≤ |q| * f.scale := one_le_mul_of_one_le_of_one_le hone hscale
    rw [isZero_of_isInfinite (h.overflow hq)]
    exact ⟨fun hz => absurd hz Bool.false_ne_true, fun hhalf => by linarith⟩

/-! ### Conversions -/

/-- The sign bit of a finite datum with another number than zero is the sign of the number. -/
theorem negative_eq_of_toRat {b : Binary f} (h : b.toRat ≠ 0) :
    b.negative = decide (b.toRat < 0) := by
  have hscale := scale_cast_pos f
  rw [toRat_eq_quanta_div] at h ⊢
  have hne : b.quanta ≠ 0 := by
    intro hz
    exact h (by rw [hz, Int.cast_zero, zero_div])
  rw [negative_eq_of_quanta hne, decide_eq_decide, div_lt_iff₀ hscale, zero_mul, Int.cast_lt_zero]

/-- **Integers are rounded to nearest even.** -/
theorem roundsTo_ofInt (f : Format) (n : ℤ) : RoundsTo (n : ℚ) (ofInt f n) := by
  refine roundsTo_ofCode_roundQuotient Nat.one_pos ?_ fun _ => ?_
  · rw [Nat.cast_mul, Nat.cast_natAbs, Int.cast_abs, Nat.cast_one, div_one]
  · rw [decide_eq_decide, Int.cast_lt_zero]

/-- **Finite data are rounded to nearest even**, whatever the two formats. A datum is a quotient of
its quanta and the scale, and rounding is by the quotient. -/
theorem roundsTo_convert {b : Binary f} (h : b.isFinite = true) (g : Format) :
    RoundsTo b.toRat (b.convert g) := by
  rw [convert_of_isFinite h]
  refine roundsTo_ofCode_roundQuotient f.scale_pos ?_ negative_eq_of_toRat
  rw [abs_toRat, Nat.cast_mul, mul_div_right_comm]

/-- Conversions keep the sign bit, also where the number is cut off or vanishes. -/
theorem negative_convert {b : Binary f} (h : b.isNaN = false) (g : Format) :
    (b.convert g).negative = b.negative := by
  rcases isInfinite_or_isFinite h with hi | hfin
  · rw [convert_of_isInfinite hi, negative_infinity]
  · rw [convert_of_isFinite hfin, negative_ofCode]

/-! ### Rounding among the finite data -/

/-- `r` is finite, no finite datum is nearer to `q`, and if one with another number is as near then
the significand of `r` is even. -/
structure IsNearestEven (q : ℚ) (r : Binary f) : Prop where
  finite : r.isFinite = true
  nearest : ∀ g : Binary f, g.isFinite = true → |r.toRat - q| ≤ |g.toRat - q|
  even : ∀ g : Binary f, g.isFinite = true → g.toRat ≠ r.toRat →
    |g.toRat - q| = |r.toRat - q| → r.significand % 2 = 0

theorem RoundsTo.isNearestEven {q : ℚ} {r : Binary f} (h : RoundsTo q r)
    (hq : |q| < f.overflowBound) : IsNearestEven q r :=
  ⟨h.finite hq, h.nearest hq, h.even hq⟩

/-- A word is rounded to a finite datum. -/
theorem isNearestEven_ofWord {w : ℕ} (hw : w ≤ f.bias) (v : BitVec w) :
    IsNearestEven v.toInt (ofWord f v) :=
  (roundsTo_ofInt f v.toInt).isNearestEven (abs_toInt_lt_overflowBound hw v)

end Binary

end ConstFold
