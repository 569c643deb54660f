import ConstFold.Proofs.Decimal.Numeral
import Mathlib.Algebra.Order.Field.Power

/-!
# The form of a numeral

The form is seen from the text: the parts of a positional numeral have no exponent, those of a
scientific one do, and `e` is in the text exactly if there is an exponent (`mem_text_iff`). So no
text is in both forms. Which of them is written is decided by the exponent of the leading digit, and
comparing that with a bound is comparing the number with a power of ten
(`le_leadingExponent_iff`).

What is written has no zeros to spare if the decimal has none: the digits of the coefficient begin
and end with other digits, and where zeros are put in front of them or behind them, they fill up to
the point.

## Main definitions

* `Numeral.InPositionalForm`, `Numeral.InScientificForm` — the two forms of a text
* `Numeral.IsModerate` — the numbers that are written positionally

## Main results

* `inPositionalForm_write_iff`, `inScientificForm_write_iff` — the form of a numeral is told by the
  number
-/

namespace ConstFold

namespace Numeral

/-! ### Forms -/

namespace Parts

/-- There is no exponent, and no zero but one where a side of the point would have no digit. -/
structure IsPositional (p : Parts) : Prop where
  exponent : p.exponent = none
  whole : p.whole.head? = some '0' → p.whole = ['0']
  fraction : p.fraction.getLast? = some '0' → p.fraction = ['0']

/-- There is an exponent, one digit in front of the point, which is not a zero, and no zero at the
end of the digits after the point. There may be no point at all. -/
structure IsScientific (p : Parts) : Prop where
  exponent : p.exponent ≠ none
  length_whole : p.whole.length = 1
  whole : p.whole.head? ≠ some '0'
  fraction : p.fraction.getLast? ≠ some '0'

/-- The mark of an exponent is in the text of the parts that have one. -/
theorem mem_text_iff (p : Parts) : 'e' ∈ p.text ↔ p.exponent ≠ none := by
  have hdigits : ∀ s : List Char, (∀ c ∈ s, c.isDigit = true) → 'e' ∉ s := by
    intro s hs hmem
    exact absurd (hs 'e' hmem) (by decide)
  have hfraction : 'e' ∉ p.fractionText := by
    rw [fractionText]
    split_ifs
    · simp
    · simpa using hdigits _ p.isDigit_fraction
  rw [text, List.mem_append, List.mem_append, exponentText]
  cases p.exponent <;> simp [hdigits _ p.isDigit_whole, hfraction]

end Parts

/-- Digits, a point, and at least one more digit. -/
def InPositionalForm (s : List Char) : Prop :=
  ∃ p : Parts, p.text = s ∧ p.IsPositional

/-- A digit, further digits after a point if there are any, and an exponent. -/
def InScientificForm (s : List Char) : Prop :=
  ∃ p : Parts, p.text = s ∧ p.IsScientific

/-- **No text is in both forms.** -/
theorem InPositionalForm.not_inScientificForm {s : List Char} (h : InPositionalForm s) :
    ¬ InScientificForm s := by
  rintro ⟨q, rfl, hq⟩
  obtain ⟨p, htext, hp⟩ := h
  have hmem := q.mem_text_iff.mpr hq.exponent
  rw [← htext, p.mem_text_iff] at hmem
  exact hmem hp.exponent

section

variable {d : Decimal}

/-! ### The number and its leading digit -/

theorem pow_leadingExponent_le (h : 0 < d.coefficient) :
    (10 : ℚ) ^ leadingExponent d ≤ d.toRat := by
  have hlen := List.length_pos_iff.mpr (digits_coefficient d).2.1
  obtain ⟨n, hn⟩ := Nat.exists_eq_add_of_le' hlen
  have hle := Radix.pow_length_write_le (show 2 ≤ 10 by decide) h
  have hexp : leadingExponent d = n + d.exponent := by
    rw [leadingExponent, hn]
    omega
  rw [hn, Nat.add_sub_cancel] at hle
  rw [hexp, zpow_add₀ (by decide), zpow_natCast, Decimal.toRat]
  exact mul_le_mul_of_nonneg_right (by exact_mod_cast hle) (by positivity)

theorem toRat_lt_pow (d : Decimal) : d.toRat < (10 : ℚ) ^ (leadingExponent d + 1) := by
  have hlt := Radix.lt_pow_length_write (show 2 ≤ 10 by decide) d.coefficient
  have hexp : leadingExponent d + 1 = (Radix.write 10 d.coefficient).length + d.exponent := by
    rw [leadingExponent]
    omega
  rw [hexp, zpow_add₀ (by decide), zpow_natCast, Decimal.toRat]
  exact mul_lt_mul_of_pos_right (by exact_mod_cast hlt) (by positivity)

/-- **The leading digit tells which powers of ten the number has reached.** -/
theorem le_leadingExponent_iff (h : 0 < d.coefficient) (k : ℤ) :
    k ≤ leadingExponent d ↔ (10 : ℚ) ^ k ≤ d.toRat := by
  constructor
  · intro hle
    exact (zpow_le_zpow_right₀ (by decide) hle).trans (pow_leadingExponent_le h)
  · intro hle
    by_contra hlt
    have hpow : (10 : ℚ) ^ (leadingExponent d + 1) ≤ 10 ^ k :=
      zpow_le_zpow_right₀ (by decide) (by omega)
    exact absurd (toRat_lt_pow d) (hpow.trans hle).not_gt

/-- The numbers that are written positionally: zero, and what is neither small nor large. The bounds
are for the decimal that is written, not for the datum that it is the text of. -/
def IsModerate (q : ℚ) : Prop :=
  q = 0 ∨ (10 : ℚ) ^ (-4 : ℤ) ≤ q ∧ q < 10 ^ 16

theorem isPositional_iff (d : Decimal) : isPositional d = true ↔ IsModerate d.toRat := by
  rw [isPositional, decide_eq_true_iff, IsModerate]
  rcases Nat.eq_zero_or_pos d.coefficient with hzero | hpos
  · simp [Decimal.toRat, hzero]
  · have hne : d.toRat ≠ 0 := ((zpow_pos (by decide) _).trans_le (pow_leadingExponent_le hpos)).ne'
    have hlarge : leadingExponent d < scientificFrom ↔ d.toRat < (10 : ℚ) ^ 16 := by
      rw [← not_le, ← not_le, le_leadingExponent_iff hpos]
      exact Iff.rfl
    rw [le_leadingExponent_iff hpos, hlarge]
    exact or_congr (iff_of_false hpos.ne' hne) Iff.rfl

/-! ### The form of what is written -/

section

variable (h : d.coefficient % 10 ≠ 0)
include h

theorem head?_digits_ne : (Radix.write 10 d.coefficient).head? ≠ some '0' :=
  Radix.head?_write_ne (by omega)

theorem getLast?_digits_ne : (Radix.write 10 d.coefficient).getLast? ≠ some '0' := by
  rw [Radix.getLast?_write, ne_eq, Option.some.injEq]
  exact Radix.digitChar_ne_zero (Nat.mod_lt _ (by decide)) h

theorem isPositional_integralParts : (integralParts d).IsPositional where
  exponent := rfl
  whole hhead := by
    rw [integralParts, List.head?_append_of_ne_nil _ (digits_coefficient d).2.1] at hhead
    exact absurd hhead (head?_digits_ne h)
  fraction _ := rfl

theorem isPositional_mixedParts (hexp : ¬ 0 ≤ d.exponent) (hwhole : 0 < wholeLength d) :
    (mixedParts d hexp hwhole).IsPositional where
  exponent := rfl
  whole hhead := by
    rw [mixedParts, List.head?_take, if_neg (by omega)] at hhead
    exact absurd hhead (head?_digits_ne h)
  fraction hlast := by
    have hne := List.drop_eq_nil_iff.not.mp (drop_digits_ne_nil d hexp hwhole)
    rw [mixedParts, List.getLast?_drop, if_neg hne] at hlast
    exact absurd hlast (getLast?_digits_ne h)

theorem isPositional_fractionalParts : (fractionalParts d).IsPositional where
  exponent := rfl
  whole _ := rfl
  fraction hlast := by
    rw [fractionalParts, List.getLast?_append_of_ne_nil _ (digits_coefficient d).2.1] at hlast
    exact absurd hlast (getLast?_digits_ne h)

theorem isScientific_scientificParts : (scientificParts d).IsScientific where
  exponent := Option.some_ne_none _
  length_whole := by
    have hlen := List.length_pos_iff.mpr (digits_coefficient d).2.1
    rw [scientificParts, List.length_take]
    omega
  whole := by
    rw [scientificParts, List.head?_take, if_neg Nat.one_ne_zero]
    exact head?_digits_ne h
  fraction := by
    rw [scientificParts, List.getLast?_drop]
    split_ifs
    · simp
    · exact getLast?_digits_ne h

theorem inPositionalForm_positional : InPositionalForm (positional d) := by
  simp only [positional]
  split_ifs with hexp hwhole
  · exact ⟨_, (partsOf_integralParts d hexp).text_eq, isPositional_integralParts h⟩
  · exact ⟨_, (partsOf_mixedParts d hexp hwhole).text_eq, isPositional_mixedParts h hexp hwhole⟩
  · exact ⟨_, (partsOf_fractionalParts d (not_lt.mp hwhole)).text_eq,
      isPositional_fractionalParts h⟩

theorem inScientificForm_scientific : InScientificForm (scientific d) :=
  ⟨_, (partsOf_scientificParts d).text_eq, isScientific_scientificParts h⟩

end

/-- Zero is written with one digit on both sides of the point. -/
theorem inPositionalForm_write_zero : InPositionalForm (write ⟨0, 0⟩) := by
  refine ⟨integralParts ⟨0, 0⟩, (partsOf_integralParts _ le_rfl).text_eq.trans ?_, rfl, ?_, ?_⟩
  · rfl
  · intro _
    show Radix.write 10 0 ++ [] = ['0']
    rw [Radix.write_of_lt (by decide)]
    rfl
  · intro _
    rfl

/-- **A numeral is positional** exactly if its number is zero, or neither small nor large. -/
theorem inPositionalForm_write_iff (hd : d.IsReduced) :
    InPositionalForm (write d) ↔ IsModerate d.toRat := by
  rw [← isPositional_iff]
  rcases hd with hd | rfl
  · rw [write]
    split_ifs with hpos
    · exact iff_of_true (inPositionalForm_positional hd) hpos
    · refine iff_of_false (fun hform => ?_) hpos
      exact hform.not_inScientificForm (inScientificForm_scientific hd)
  · exact iff_of_true inPositionalForm_write_zero rfl

/-- **All other numerals are scientific.** -/
theorem inScientificForm_write_iff (hd : d.IsReduced) :
    InScientificForm (write d) ↔ ¬ IsModerate d.toRat := by
  rw [← inPositionalForm_write_iff hd]
  constructor
  · intro hsci hpos
    exact hpos.not_inScientificForm hsci
  · intro hpos
    rcases hd with hd | rfl
    · rw [write] at hpos ⊢
      split_ifs at hpos ⊢ with hform
      · exact absurd (inPositionalForm_positional hd) hpos
      · exact inScientificForm_scientific hd
    · exact absurd inPositionalForm_write_zero hpos

end

end Numeral

end ConstFold
