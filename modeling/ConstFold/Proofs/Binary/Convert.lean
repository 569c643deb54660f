import ConstFold.Binary.Round
import ConstFold.Proofs.Binary.Magnitude
import ConstFold.Proofs.Binary.Nearest

/-!
# Conversions that lose nothing

The conversions look at a finite datum only through its sign and its number. That is
`Binary.IsQuotient`: the datum has a sign `s` and stands for exactly `num / den`. Two data of the
same quotient, be they of different formats, convert alike, and so does the integer that the
quotient is. What remains is to show that a quotient survives a conversion, and it does where the
destination has enough digits and enough range: for integers that the format holds, among them all
of at most `fraction + 1` digits, and from a format within another one.

## Main definitions

* `Binary.IsQuotient` — a finite datum of a given sign and number
* `Format.Within` — every finite datum of one format is one of the other
* `Format.Holds` — an integer is exact in a format

## Main results

* `IsQuotient.convert`, `IsQuotient.toWord` — conversions depend on the quotient alone
* `isQuotient_ofInt`, `isQuotient_convert` — conversions that keep the quotient
* `convert_ofInt`, `toWord_ofWord` — an integer is not changed by a stop at a float
* `convert_convert`, `toWord_convert` — nor is a datum by a stop at a larger format
* `convert_convert_convert` — there and back between two formats loses nothing more
-/

namespace ConstFold

/-- A format has no more digits and no more range than another one. This makes every datum of the
first one of the second, subnormal ones included, because the least exponent is determined by the
bias and the number of digits. -/
structure Format.Within (f g : Format) : Prop where
  fraction_le : f.fraction ≤ g.fraction
  bias_le : f.bias ≤ g.bias

theorem Format.within_refl (f : Format) : f.Within f :=
  ⟨le_rfl, le_rfl⟩

/-- The larger format counts in finer quanta. -/
theorem Format.Within.exists_scale_eq {f g : Format} (h : f.Within g) :
    ∃ d, g.scale = 2 ^ d * f.scale := by
  obtain ⟨hfrac, hbias⟩ := h
  refine ⟨g.quantumExponent - f.quantumExponent, ?_⟩
  have hle : f.quantumExponent ≤ g.quantumExponent := by
    rw [quantumExponent, quantumExponent]
    omega
  rw [scale, scale, ← Nat.pow_add, Nat.sub_add_cancel hle]

/-- A finite code of the format stands for the integer, its sign aside. Conversions of such an
integer are exact, so most of what is said of conversions there and back starts from it. -/
def Format.Holds (f : Format) (n : ℤ) : Prop :=
  ∃ code < f.infinityCode, magnitude f code = n.natAbs * f.scale

theorem Format.holds_of_natAbs_lt {f : Format} {n : ℤ} (hfrac : n.natAbs < 2 ^ (f.fraction + 1))
    (hbias : n.natAbs < 2 ^ (f.bias + 1)) : f.Holds n := by
  obtain ⟨code, hmag⟩ := exists_magnitude_eq hfrac f.quantumExponent
  refine ⟨code, ?_, hmag⟩
  rw [← (magnitude_strictMono f).lt_iff_lt, hmag, magnitude_infinityCode]
  exact Nat.mul_lt_mul_of_pos_right hbias f.scale_pos

namespace Binary

variable {f g : Format}

/-! ### The cases of a conversion -/

section

variable {b : Binary f}

theorem convert_of_isNaN (h : b.isNaN = true) (g : Format) : b.convert g = nan g := by
  rw [Binary.convert, if_pos h]

theorem toWord_of_isNaN (h : b.isNaN = true) (w : ℕ) : b.toWord w = 0#w := by
  rw [toWord, if_pos h]

theorem convert_of_isInfinite (h : b.isInfinite = true) (g : Format) :
    b.convert g = infinity g b.negative := by
  rw [Binary.convert, isNaN_of_isInfinite h, h]
  rfl

theorem toWord_of_isInfinite (h : b.isInfinite = true) (w : ℕ) :
    b.toWord w = if b.negative then BitVec.intMin w else BitVec.intMax w := by
  rw [toWord, isNaN_of_isInfinite h, h]
  rfl

theorem convert_of_isFinite (h : b.isFinite = true) (g : Format) :
    b.convert g = ofCode g b.negative (roundQuotient g (magnitude f b.code * g.scale) f.scale) := by
  rw [Binary.convert, isNaN_of_isFinite h, isInfinite_of_isFinite h]
  rfl

theorem toWord_of_isFinite (h : b.isFinite = true) (w : ℕ) :
    b.toWord w = saturate w b.truncate := by
  rw [toWord, isNaN_of_isFinite h, isInfinite_of_isFinite h]
  rfl

end

/-! ### Results that are no NaNs -/

theorem isNaN_ofCode_roundQuotient (f : Format) (s : Bool) (num den : ℕ) :
    (ofCode f s (roundQuotient f num den)).isNaN = false := by
  have hle := roundQuotient_le f num den
  rw [isNaN, code_ofCode_of_lt hle]
  exact decide_eq_false hle.not_gt

theorem isNaN_ofInt (f : Format) (n : ℤ) : (ofInt f n).isNaN = false :=
  isNaN_ofCode_roundQuotient ..

theorem isNaN_convert {b : Binary f} (hb : b.isNaN = false) (g : Format) :
    (b.convert g).isNaN = false := by
  rcases isInfinite_or_isFinite hb with hi | hfin
  · rw [convert_of_isInfinite hi]
    exact isNaN_of_isInfinite (isInfinite_infinity ..)
  · rw [convert_of_isFinite hfin]
    exact isNaN_ofCode_roundQuotient ..

/-! ### Data of one quotient -/

/-- A finite datum of sign `s` that stands for exactly `num / den`, with that sign. All conversions
of finite data are computed from such a quotient alone, hence data of different formats with one
quotient are converted alike. -/
structure IsQuotient (b : Binary f) (s : Bool) (num den : ℕ) : Prop where
  finite : b.isFinite = true
  negative : b.negative = s
  /-- The number in quanta, times the denominator. -/
  magnitude_mul : magnitude f b.code * den = num * f.scale

theorem isQuotient_self {b : Binary f} (h : b.isFinite = true) :
    b.IsQuotient b.negative (magnitude f b.code) f.scale :=
  ⟨h, rfl, rfl⟩

/-- A quotient that the format holds is kept by rounding. -/
theorem isQuotient_ofCode {s : Bool} {num den code : ℕ} (hden : 0 < den)
    (hcode : code < f.infinityCode) (h : num * f.scale = magnitude f code * den) :
    (ofCode f s (roundQuotient f (num * f.scale) den)).IsQuotient s num den := by
  rw [roundQuotient_of_eq_magnitude hden hcode.le h]
  have hc : (ofCode f s code).code = code := code_ofCode_of_lt hcode.le
  exact ⟨by simpa [isFinite, hc] using hcode, negative_ofCode .., by rw [hc, h]⟩

namespace IsQuotient

variable {b : Binary f} {s : Bool} {num den : ℕ} (hden : 0 < den) (h : b.IsQuotient s num den)
include hden h

theorem eq {b' : Binary f} (h' : b'.IsQuotient s num den) : b = b' := by
  refine eq_of_negative_of_code (h.negative.trans h'.negative.symm) ?_
  have hmag := h.magnitude_mul.trans h'.magnitude_mul.symm
  exact (magnitude_strictMono f).injective (Nat.eq_of_mul_eq_mul_right hden hmag)

theorem convert (g : Format) :
    b.convert g = ofCode g s (roundQuotient g (num * g.scale) den) := by
  have hquot : magnitude f b.code * g.scale * den = num * g.scale * f.scale := by
    rw [Nat.mul_right_comm, h.magnitude_mul, Nat.mul_right_comm]
  rw [convert_of_isFinite h.finite, h.negative, roundQuotient_congr f.scale_pos hden hquot]

theorem truncate : b.truncate = (if s then -(num : ℤ) else num).tdiv den := by
  have hdiv : magnitude f b.code / f.scale = num / den := by
    rw [← Nat.mul_div_mul_right _ _ hden, h.magnitude_mul, Nat.mul_comm f.scale,
      Nat.mul_div_mul_right _ _ f.scale_pos]
  have htdiv : (magnitude f b.code : ℤ).tdiv f.scale = (num : ℤ).tdiv den := congrArg Nat.cast hdiv
  rw [Binary.truncate, quanta, h.negative]
  cases s with
  | false => exact htdiv
  | true => simpa only [if_true, Int.neg_tdiv, neg_inj] using htdiv

theorem toWord (w : ℕ) :
    b.toWord w = saturate w ((if s then -(num : ℤ) else num).tdiv den) := by
  rw [toWord_of_isFinite h.finite, h.truncate hden]

end IsQuotient

/-! ### Integers -/

/-- A word holds its own number. -/
theorem saturate_toInt {w : ℕ} (v : BitVec w) : saturate w v.toInt = v := by
  have hmin := BitVec.toInt_intMin_le v
  have hmax : v.toInt ≤ (BitVec.intMax w).toInt := BitVec.toInt_intMax ▸ BitVec.toInt_le
  rw [saturate, min_eq_right hmax, max_eq_right hmin, BitVec.ofInt_toInt]

theorem abs_toInt_le {w : ℕ} (v : BitVec w) : |v.toInt| ≤ 2 ^ w := by
  have hlo := BitVec.le_two_mul_toInt (x := v)
  have hhi := BitVec.two_mul_toInt_lt (x := v)
  rw [abs_le]
  constructor <;> omega

section

variable {n : ℤ} (h : f.Holds n)
include h

/-- An integer that the format holds is exact. -/
theorem isQuotient_ofInt : (ofInt f n).IsQuotient (n < 0) n.natAbs 1 := by
  obtain ⟨code, hcode, hmag⟩ := h
  exact isQuotient_ofCode Nat.one_pos hcode (by rw [Nat.mul_one, hmag])

/-- Rounding an exact integer anew is rounding it from the start. -/
theorem convert_ofInt (g : Format) : (ofInt f n).convert g = ofInt g n :=
  (isQuotient_ofInt h).convert Nat.one_pos g

theorem toWord_ofInt (w : ℕ) : (ofInt f n).toWord w = saturate w n := by
  have hsigned : (if decide (n < 0) then -(n.natAbs : ℤ) else n.natAbs) = n := by
    simp only [decide_eq_true_eq]
    split_ifs <;> omega
  rw [(isQuotient_ofInt h).toWord Nat.one_pos, hsigned, Nat.cast_one, Int.tdiv_one]

end

/-- A word whose number is exact comes back. -/
theorem toWord_ofWord {w : ℕ} {v : BitVec w} (h : f.Holds v.toInt) :
    (ofWord f v).toWord w = v := by
  rw [ofWord, toWord_ofInt h, saturate_toInt]

/-! ### From a format to a larger one -/

theorem negative_infinity (f : Format) (s : Bool) : (infinity f s).negative = s :=
  negative_ofCode ..

section

variable {b : Binary f} (hfg : f.Within g)
include hfg

/-- A finite datum is one of every larger format. -/
theorem isQuotient_convert (h : b.isFinite = true) :
    (b.convert g).IsQuotient b.negative (magnitude f b.code) f.scale := by
  obtain ⟨k, j, hk, hmag⟩ := exists_eq_mul_two_pow f b.code
  obtain ⟨d, hd⟩ := hfg.exists_scale_eq
  have hkg : k < 2 ^ (g.fraction + 1) :=
    hk.trans_le (Nat.pow_le_pow_right Nat.two_pos (Nat.succ_le_succ hfg.fraction_le))
  obtain ⟨code, hcode⟩ := exists_magnitude_eq hkg (j + d)
  have hquot : magnitude f b.code * g.scale = magnitude g code * f.scale := by
    rw [hmag, hd, hcode, Nat.pow_add]
    ring
  have hlt : code < g.infinityCode := by
    rw [← (magnitude_strictMono g).lt_iff_lt, magnitude_infinityCode]
    refine Nat.lt_of_mul_lt_mul_right (a := f.scale) ?_
    calc magnitude g code * f.scale
        = magnitude f b.code * g.scale := hquot.symm
      _ < magnitude f f.infinityCode * g.scale :=
          Nat.mul_lt_mul_of_pos_right (magnitude_strictMono f (code_lt_of_isFinite h)) g.scale_pos
      _ = 2 ^ (f.bias + 1) * g.scale * f.scale := by
          rw [magnitude_infinityCode, Nat.mul_right_comm]
      _ ≤ 2 ^ (g.bias + 1) * g.scale * f.scale :=
          Nat.mul_le_mul_right _ (Nat.mul_le_mul_right _
            (Nat.pow_le_pow_right Nat.two_pos (Nat.succ_le_succ hfg.bias_le)))
  rw [(isQuotient_self h).convert f.scale_pos]
  exact isQuotient_ofCode f.scale_pos hlt hquot

variable (hb : b.isNaN = false)
include hb

/-- A stop at a larger format changes no conversion to a format. -/
theorem convert_convert (r : Format) : (b.convert g).convert r = b.convert r := by
  rcases isInfinite_or_isFinite hb with hi | hfin
  · rw [convert_of_isInfinite hi, convert_of_isInfinite (isInfinite_infinity ..),
      negative_infinity, convert_of_isInfinite hi]
  · rw [(isQuotient_convert hfg hfin).convert f.scale_pos,
      (isQuotient_self hfin).convert f.scale_pos]

/-- Nor does it change a conversion to a word. -/
theorem toWord_convert (w : ℕ) : (b.convert g).toWord w = b.toWord w := by
  rcases isInfinite_or_isFinite hb with hi | hfin
  · rw [convert_of_isInfinite hi, toWord_of_isInfinite (isInfinite_infinity ..),
      negative_infinity, toWord_of_isInfinite hi]
  · rw [(isQuotient_convert hfg hfin).toWord f.scale_pos,
      (isQuotient_self hfin).toWord f.scale_pos]

end

/-- A datum that is no NaN is converted to its own format without change. -/
theorem convert_self {b : Binary f} (hb : b.isNaN = false) : b.convert f = b := by
  rcases isInfinite_or_isFinite hb with hi | hfin
  · rw [convert_of_isInfinite hi]
    exact eq_of_isInfinite (isInfinite_infinity ..) hi (negative_infinity ..)
  · exact (isQuotient_convert f.within_refl hfin).eq f.scale_pos (isQuotient_self hfin)

/-! ### There and back -/

/-- A datum that is no NaN comes back from a larger format. -/
theorem convert_convert_self (hfg : f.Within g) {b : Binary f} (hb : b.isNaN = false) :
    (b.convert g).convert f = b := by
  rw [convert_convert hfg hb, convert_self hb]

/-- Between two formats one of which is within the other only the first conversion can lose
anything. -/
theorem convert_convert_convert (h : f.Within g ∨ g.Within f) (b : Binary f) :
    ((b.convert g).convert f).convert g = b.convert g := by
  cases hb : b.isNaN with
  | true => rw [convert_of_isNaN hb, convert_of_isNaN (isNaN_nan g), convert_of_isNaN (isNaN_nan f)]
  | false =>
    rcases h with hfg | hgf
    · rw [convert_convert_self hfg hb]
    · exact convert_convert_self hgf (isNaN_convert hb g)

end Binary

end ConstFold
