import ConstFold.Proofs.Binary.Integer
import Mathlib.Data.Rat.Floor

/-!
# Truncation to words

A datum becomes a word in two steps: its exact number is rounded toward zero, and what lies past an
end of the words becomes that end. `IsTruncated` says this about the rational number of the datum,
with floor and ceiling in place of a quotient of quanta, and says it again for the numbers where one
of the two steps does nothing:

* between the ends nothing is cut off, and nothing is wrapped; the greatest datum below the upper
  end is such a number;
* between -1 and 1 nothing is left but zero;
* an integer between the ends is exact, the least word among them.

Whether the greatest datum below the upper end is an integer depends on the digits of the format.
If the words have more bits than the format has digits, it is one, and it is exact. With fewer bits
the greatest word is a datum itself and has further data above it, all of which lose a fraction.
With just one bit more both hold: the greatest word is the last datum below the end.

## Main definitions

* `towardZero` — a rational rounded toward zero
* `Binary.IsTruncated` — the word that a datum becomes
* `Binary.IsGreatestBelow` — the last datum below a number

## Main results

* `toRat_towardZero` — the running definition truncates the exact number
* `isTruncated_toWord` — what a datum becomes, whatever its bits
* `IsGreatestBelow.toInt_toWord_eq`, `IsGreatestBelow.toWord_eq_intMax` — the last datum below the
  upper end, with more bits than digits and with fewer
-/

namespace ConstFold

/-! ### Rounding toward zero -/

/-- A rational rounded toward zero: the greatest integer not above it, or the least one not below it
if it is negative. -/
def towardZero (q : ℚ) : ℤ :=
  if 0 ≤ q then ⌊q⌋ else ⌈q⌉

@[simp] theorem towardZero_intCast (n : ℤ) : towardZero n = n := by
  simp [towardZero]

/-- Rounding a quotient toward zero is dividing with that rounding. -/
theorem towardZero_div (n : ℤ) {d : ℕ} (hd : 0 < d) : towardZero (n / d) = n.tdiv d := by
  have hd' : (0 : ℚ) < d := by exact_mod_cast hd
  rw [towardZero]
  split_ifs with h
  · have hn : 0 ≤ n := by
      rw [le_div_iff₀ hd', zero_mul] at h
      exact_mod_cast h
    rw [Rat.floor_intCast_div_natCast, Int.tdiv_eq_ediv_of_nonneg hn]
  · have hn : 0 ≤ -n := by
      rw [not_le, div_lt_iff₀ hd', zero_mul] at h
      have : n < 0 := by exact_mod_cast h
      omega
    have hneg : (n : ℚ) / d = -((-n : ℤ) / d : ℚ) := by
      push_cast
      ring
    rw [hneg, Int.ceil_neg, Rat.floor_intCast_div_natCast, ← Int.tdiv_eq_ediv_of_nonneg hn,
      Int.neg_tdiv, neg_neg]

theorem towardZero_eq_zero {q : ℚ} (h : |q| < 1) : towardZero q = 0 := by
  obtain ⟨hlo, hhi⟩ := abs_lt.mp h
  rw [towardZero]
  split_ifs with hq
  · rw [Int.floor_eq_zero_iff]
    exact ⟨hq, hhi⟩
  · rw [Int.ceil_eq_zero_iff]
    exact ⟨hlo, (not_le.mp hq).le⟩

/-- A number less than one below an integer that is not positive is rounded up to it or past it. -/
theorem le_towardZero {q : ℚ} {n : ℤ} (hn : n ≤ 0) (h : (n : ℚ) - 1 < q) : n ≤ towardZero q := by
  rw [towardZero]
  split_ifs with hq
  · exact hn.trans (Int.floor_nonneg.mpr hq)
  · exact Int.le_ceil_iff.mpr h

theorem towardZero_lt {q : ℚ} {n : ℤ} (hn : 0 < n) (h : q < n) : towardZero q < n := by
  rw [towardZero]
  split_ifs with hq
  · exact Int.floor_lt.mpr h
  · have : ⌈q⌉ ≤ 0 := Int.ceil_le.mpr (by exact_mod_cast (not_le.mp hq).le)
    omega

theorem towardZero_eq {q : ℚ} {n : ℤ} (hn : 0 ≤ n) (hle : n ≤ q) (hlt : q < n + 1) :
    towardZero q = n := by
  have hq : 0 ≤ q := le_trans (by exact_mod_cast hn) hle
  rw [towardZero, if_pos hq]
  exact Int.floor_eq_iff.mpr ⟨hle, hlt⟩

namespace Binary

variable {f : Format}

/-! ### Data that are integers -/

theorem toRat_towardZero (b : Binary f) : towardZero b.toRat = b.truncate := by
  rw [toRat_eq_quanta_div, towardZero_div _ f.scale_pos]
  rfl

/-- The powers of two in the range of a format are data. -/
theorem holds_two_pow {k : ℕ} (hk : k ≤ f.bias) : f.Holds (2 ^ k) := by
  have hone : 1 < 2 ^ (f.fraction + 1) := Nat.one_lt_two_pow (Nat.succ_ne_zero _)
  obtain ⟨code, hcode⟩ := exists_magnitude_eq hone (k + f.quantumExponent)
  have hmag : magnitude f code = 2 ^ k * f.scale := by
    rw [hcode, Nat.one_mul, Nat.pow_add, Format.scale]
  refine ⟨code, ?_, ?_⟩
  · rw [← (magnitude_strictMono f).lt_iff_lt, hmag, magnitude_infinityCode]
    exact Nat.mul_lt_mul_of_pos_right
      (Nat.pow_lt_pow_right Nat.one_lt_two (Nat.lt_succ_of_le hk)) f.scale_pos
  · rw [hmag, Int.natAbs_pow]
    rfl

/-- The greatest word has a digit less than the word has bits, the sign being one of them. -/
theorem holds_intMax {w : ℕ} (hw : 0 < w) (hbias : w ≤ f.bias) (hdigits : w ≤ f.fraction + 2) :
    f.Holds (BitVec.intMax w).toInt := by
  have hpow : (0 : ℤ) < 2 ^ (w - 1) := by positivity
  have hlt : (BitVec.intMax w).toInt.natAbs < 2 ^ (w - 1) := by
    rw [BitVec.toInt_intMax]
    zify
    rw [abs_of_nonneg (by omega)]
    omega
  exact Format.holds_of_natAbs_lt
    (hlt.trans_le (Nat.pow_le_pow_right Nat.two_pos (by omega)))
    (hlt.trans_le (Nat.pow_le_pow_right Nat.two_pos (by omega)))

/-- From `2 ^ fraction` on the last digit of a magnitude is a unit or more. -/
theorem scale_dvd_magnitude {code : ℕ} (h : 2 ^ f.fraction * f.scale ≤ magnitude f code) :
    f.scale ∣ magnitude f code := by
  obtain ⟨k, j, hk, hmag⟩ := exists_eq_mul_two_pow f code
  have hj : f.quantumExponent ≤ j := by
    by_contra hlt
    -- with a digit after the point there are too few before it
    have hup : k * 2 ^ j < 2 ^ (f.fraction + 1) * 2 ^ j :=
      Nat.mul_lt_mul_of_pos_right hk (Nat.two_pow_pos j)
    have hle : 2 ^ (f.fraction + 1) * 2 ^ j ≤ 2 ^ f.fraction * f.scale := by
      rw [Format.scale, ← Nat.pow_add, ← Nat.pow_add]
      exact Nat.pow_le_pow_right Nat.two_pos (by omega)
    omega
  rw [hmag]
  exact Nat.dvd_mul_left_of_dvd (Nat.pow_dvd_pow 2 hj) k

theorem exists_intCast_eq_toRat {b : Binary f} (h : 2 ^ f.fraction ≤ |b.toRat|) :
    ∃ n : ℤ, b.toRat = n := by
  have hscale := scale_cast_pos f
  rw [abs_toRat, le_div_iff₀ hscale] at h
  have hdvd : f.scale ∣ magnitude f b.code := scale_dvd_magnitude (by exact_mod_cast h)
  refine ⟨b.truncate, ?_⟩
  rw [toRat_eq_quanta_div, ← truncate_mul_scale hdvd, Int.cast_mul, Int.cast_natCast,
    mul_div_cancel_right₀ _ hscale.ne']

/-! ### The greatest datum below a number -/

/-- `b` is the greatest finite datum below a number, which itself need not be a datum. -/
structure IsGreatestBelow (q : ℚ) (b : Binary f) : Prop where
  finite : b.isFinite = true
  lt : b.toRat < q
  le : ∀ a : Binary f, a.isFinite = true → a.toRat < q → a.toRat ≤ b.toRat

/-- A datum that counts fewer quanta than the next code stands for counts no more than the code. -/
theorem quanta_le_of_lt_succ {a : Binary f} {code : ℕ} (h : a.quanta < magnitude f (code + 1)) :
    a.quanta ≤ magnitude f code := by
  rw [quanta] at h ⊢
  split_ifs at h ⊢
  · omega
  · have hcode : a.code < code + 1 := (magnitude_strictMono f).lt_iff_lt.mp (by exact_mod_cast h)
    exact_mod_cast (magnitude_strictMono f).monotone (Nat.lt_succ_iff.mp hcode)

/-- The datum before a power of two is the greatest below it, the power where finite data end
included. -/
theorem isGreatestBelow_ofCode {code k : ℕ} (hcode : code < f.infinityCode)
    (hpow : magnitude f (code + 1) = 2 ^ k * f.scale) :
    (ofCode f false code).IsGreatestBelow (2 ^ k) := by
  have hscale := scale_cast_pos f
  have hq : (2 : ℚ) ^ k = magnitude f (code + 1) / f.scale := by
    rw [hpow, Nat.cast_mul, mul_div_cancel_right₀ _ hscale.ne']
    push_cast
    rfl
  have hquanta : (ofCode f false code).quanta = magnitude f code := by
    rw [quanta, negative_ofCode, code_ofCode_of_lt hcode.le]
    rfl
  refine ⟨?_, ?_, fun a _ hlt => ?_⟩
  · rw [isFinite, code_ofCode_of_lt hcode.le]
    exact decide_eq_true hcode
  · rw [toRat_eq_quanta_div, hquanta, hq]
    refine div_lt_div_of_pos_right ?_ hscale
    exact_mod_cast magnitude_strictMono f (Nat.lt_succ_self code)
  · rw [toRat_eq_quanta_div, hq, div_lt_div_iff_of_pos_right hscale] at hlt
    have hle : a.quanta ≤ magnitude f code := quanta_le_of_lt_succ (by exact_mod_cast hlt)
    rw [toRat_eq_quanta_div, toRat_eq_quanta_div, hquanta]
    exact div_le_div_of_nonneg_right (by exact_mod_cast hle) hscale.le

/-- The greatest datum below a power of two is at least the power before. -/
theorem IsGreatestBelow.two_pow_le {k : ℕ} (hk : k ≤ f.bias) {b : Binary f}
    (h : b.IsGreatestBelow (2 ^ (k + 1))) : 2 ^ k ≤ b.toRat := by
  have hholds := holds_two_pow hk
  have hnum : (ofInt f (2 ^ k)).toRat = 2 ^ k := by
    rw [toRat_ofInt hholds]
    push_cast
    rfl
  rw [← hnum]
  refine h.le _ (isQuotient_ofInt hholds).finite ?_
  rw [hnum]
  exact pow_lt_pow_right₀ one_lt_two (Nat.lt_succ_self k)

/-! ### Words -/

/-- `v` is the word that a datum `x` becomes. The clause on finite data determines it: their number
is rounded toward zero first and cut off at the ends of the words afterwards. The clauses after it
spell out where nothing is cut off. -/
structure IsTruncated {w : ℕ} (x : Binary f) (v : BitVec w) : Prop where
  nan : x.isNaN = true → v = 0#w
  infinite : x.isInfinite = true → v = if x.negative then BitVec.intMin w else BitVec.intMax w
  finite : x.isFinite = true →
    v.toInt = max (BitVec.intMin w).toInt (min (BitVec.intMax w).toInt (towardZero x.toRat))
  /-- Between the ends nothing is cut off or wrapped. -/
  between : x.isFinite = true → -2 ^ (w - 1) - 1 < x.toRat → x.toRat < 2 ^ (w - 1) →
    v.toInt = towardZero x.toRat
  vanishing : x.isFinite = true → |x.toRat| < 1 → v = 0#w
  /-- An integer that is a word is exact, the least word included. -/
  integral : x.isFinite = true → ∀ n : ℤ, x.toRat = n → -2 ^ (w - 1) ≤ n → n < 2 ^ (w - 1) →
    v.toInt = n
  /-- Nor is the greatest datum below the upper end cut off. -/
  greatest : x.IsGreatestBelow (2 ^ (w - 1)) → v.toInt = towardZero x.toRat

theorem toInt_toWord {x : Binary f} (h : x.isFinite = true) (w : ℕ) :
    (x.toWord w).toInt
      = max (BitVec.intMin w).toInt (min (BitVec.intMax w).toInt (towardZero x.toRat)) := by
  rw [toWord_of_isFinite h, toInt_saturate, toRat_towardZero]

theorem toInt_toWord_of_between {w : ℕ} (hw : 0 < w) {x : Binary f} (h : x.isFinite = true)
    (hlo : -2 ^ (w - 1) - 1 < x.toRat) (hhi : x.toRat < 2 ^ (w - 1)) :
    (x.toWord w).toInt = towardZero x.toRat := by
  have hpow : (0 : ℤ) < 2 ^ (w - 1) := by positivity
  have hge : -2 ^ (w - 1) ≤ towardZero x.toRat := by
    refine le_towardZero (by omega) ?_
    push_cast
    exact hlo
  have hlt : towardZero x.toRat < 2 ^ (w - 1) := by
    refine towardZero_lt hpow ?_
    push_cast
    exact hhi
  rw [toInt_toWord h, BitVec.toInt_intMin_of_pos hw, BitVec.toInt_intMax]
  omega

namespace IsGreatestBelow

variable {w : ℕ} {x : Binary f} (h : x.IsGreatestBelow (2 ^ (w - 1)))
include h

theorem toInt_toWord_eq_towardZero (hw : 1 < w) (hbias : w ≤ f.bias) :
    (x.toWord w).toInt = towardZero x.toRat := by
  obtain ⟨k, rfl⟩ : ∃ k, w = k + 2 := Nat.exists_eq_add_of_le' hw
  have hge : 2 ^ k ≤ x.toRat := h.two_pow_le (by omega)
  refine toInt_toWord_of_between (by omega) h.finite ?_ h.lt
  have hpow : (0 : ℚ) < 2 ^ k := by positivity
  have hend : (0 : ℚ) < 2 ^ (k + 2 - 1) := by positivity
  linarith

/-- **With more bits than digits the greatest datum below the upper end is exact.** -/
theorem toInt_toWord_eq (hbias : w ≤ f.bias) (hdigits : f.fraction + 1 < w) :
    ((x.toWord w).toInt : ℚ) = x.toRat := by
  have hw : 1 < w := by omega
  rw [h.toInt_toWord_eq_towardZero hw hbias]
  obtain ⟨k, rfl⟩ : ∃ k, w = k + 2 := Nat.exists_eq_add_of_le' hw
  have hge : 2 ^ k ≤ x.toRat := h.two_pow_le (by omega)
  have hfrac : (2 : ℚ) ^ f.fraction ≤ |x.toRat| :=
    (pow_le_pow_right₀ one_le_two (by omega)).trans (hge.trans (le_abs_self _))
  obtain ⟨n, hn⟩ := exists_intCast_eq_toRat hfrac
  rw [hn, towardZero_intCast]

/-- **With at most one bit more than digits it becomes the greatest word**, which is a datum too. -/
theorem toWord_eq_intMax (hw : 1 < w) (hbias : w ≤ f.bias) (hdigits : w ≤ f.fraction + 2) :
    x.toWord w = BitVec.intMax w := by
  have hmax : (BitVec.intMax w).toInt = 2 ^ (w - 1) - 1 := BitVec.toInt_intMax
  have hholds : f.Holds (BitVec.intMax w).toInt := holds_intMax (by omega) hbias hdigits
  have hbelow : ((BitVec.intMax w).toInt : ℚ) ≤ x.toRat := by
    rw [← toRat_ofInt hholds]
    refine h.le _ (isQuotient_ofInt hholds).finite ?_
    rw [toRat_ofInt hholds, hmax]
    push_cast
    exact sub_one_lt _
  -- no integer is left between the greatest word and the end
  have hend : x.toRat < (BitVec.intMax w).toInt + 1 := by
    rw [hmax]
    push_cast
    rw [sub_add_cancel]
    exact h.lt
  have hnonneg : 0 ≤ (BitVec.intMax w).toInt := by
    have hpow : (0 : ℤ) < 2 ^ (w - 1) := by positivity
    omega
  rw [← BitVec.toInt_inj, h.toInt_toWord_eq_towardZero hw hbias,
    towardZero_eq hnonneg hbelow hend]

end IsGreatestBelow

/-- **A datum becomes the word nearest to its number rounded toward zero**, and a NaN becomes
zero. -/
theorem isTruncated_toWord {w : ℕ} (hw : 1 < w) (hbias : w ≤ f.bias) (x : Binary f) :
    x.IsTruncated (x.toWord w) where
  nan h := toWord_of_isNaN h w
  infinite h := toWord_of_isInfinite h w
  finite h := toInt_toWord h w
  between h := toInt_toWord_of_between (by omega) h
  vanishing h hsmall := by
    rw [toWord_of_isFinite h, ← toRat_towardZero, towardZero_eq_zero hsmall]
    exact saturate_toInt 0#w ▸ congrArg (saturate w) BitVec.toInt_zero.symm
  integral h n hn hlo hhi := by
    have hlo' : -2 ^ (w - 1) - 1 < x.toRat := by
      rw [hn]
      have : ((-2 ^ (w - 1) : ℤ) : ℚ) ≤ n := by exact_mod_cast hlo
      push_cast at this
      linarith
    have hhi' : x.toRat < 2 ^ (w - 1) := by
      rw [hn]
      exact_mod_cast hhi
    rw [toInt_toWord_of_between (by omega) h hlo' hhi', hn, towardZero_intCast]
  greatest h := h.toInt_toWord_eq_towardZero hw hbias

end Binary

end ConstFold
