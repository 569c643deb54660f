import ConstFold.Binary.Basic
import Mathlib.Order.Monotone.Basic
import Mathlib.Tactic.Ring

/-!
# Codes, magnitudes and classes

Within one exponent the magnitudes are equally spaced, and the next exponent begins where the last
one ends, at twice the spacing. So a code can be read in the *piece* of an exponent as
`shift * 2 ^ fraction + count`, with the magnitude `count * 2 ^ shift`, and this reading stays
right at `count = 2 ^ (fraction + 1)`, where the code already belongs to the next exponent.

Magnitudes do not stop at `infinityCode`: past it they go on as if the exponent field had no end,
which is what rounding before the check for overflow needs. The classes of data do: a datum is a
NaN, an infinity or finite by where its code lies from `infinityCode`. They exclude each other, and
an infinity is determined by its sign.

## Main results

* `magnitude_piece`, `exists_piece` — the magnitude of a code read in a piece, and every code is
  in one
* `magnitude_strictMono` — codes are ordered as the magnitudes they stand for
* `exists_magnitude_eq` — every short number times a power of two is a magnitude
* `magnitude_oneCode`, `magnitude_infinityCode` — the quanta in 1, and where finite data end
* `Binary.isInfinite_or_isFinite` — what is no NaN is an infinity or finite
* `Binary.eq_of_isInfinite` — there is one infinity of each sign
-/

namespace ConstFold

variable {f : Format}

/-! ### Pieces -/

/-- A count is in the piece of a shift, both ends included. Without a shift the piece goes down to
zero: it holds the data with an empty exponent field as well. -/
def InPiece (f : Format) (shift count : ℕ) : Prop :=
  count ≤ 2 ^ (f.fraction + 1) ∧ (shift = 0 ∨ 2 ^ f.fraction ≤ count)

theorem magnitude_piece {shift count : ℕ} (h : InPiece f shift count) :
    magnitude f (shift * 2 ^ f.fraction + count) = count * 2 ^ shift := by
  obtain ⟨hle, hge⟩ := h
  have hp : 0 < 2 ^ f.fraction := Nat.two_pow_pos _
  rw [Nat.pow_succ] at hle
  rcases Nat.lt_or_ge count (2 ^ f.fraction) with hlt | hge'
  · -- an empty exponent field
    obtain rfl : shift = 0 := by omega
    simp [magnitude, Nat.div_eq_of_lt hlt, Nat.mod_eq_of_lt hlt]
  · rcases Nat.lt_or_eq_of_le hle with hlt | rfl
    · obtain ⟨r, rfl⟩ := Nat.exists_eq_add_of_le hge'
      have hr : r < 2 ^ f.fraction := by omega
      have hcode : shift * 2 ^ f.fraction + (2 ^ f.fraction + r)
          = r + 2 ^ f.fraction * (shift + 1) := by ring
      simp [magnitude, hcode, Nat.add_mul_div_left _ _ hp, Nat.div_eq_of_lt hr,
        Nat.mod_eq_of_lt hr]
    · -- the upper end: the next exponent with an empty fraction
      have hcode : shift * 2 ^ f.fraction + 2 ^ f.fraction * 2 = 2 ^ f.fraction * (shift + 2) := by
        ring
      simp only [magnitude, hcode, Nat.mul_div_cancel_left _ hp, Nat.mul_mod_right]
      rw [if_neg (by omega), show shift + 2 - 1 = shift + 1 from rfl, Nat.pow_succ]
      ring

theorem exists_piece (f : Format) (code : ℕ) :
    ∃ shift count, code = shift * 2 ^ f.fraction + count ∧ count < 2 ^ (f.fraction + 1) ∧
      InPiece f shift count := by
  have hp : 0 < 2 ^ f.fraction := Nat.two_pow_pos _
  have hdiv := Nat.div_add_mod code (2 ^ f.fraction)
  have hmod := Nat.mod_lt code hp
  rcases Nat.eq_zero_or_pos (code / 2 ^ f.fraction) with h | h
  · have hlt : code < 2 ^ (f.fraction + 1) := by
      rw [h] at hdiv
      rw [Nat.pow_succ]
      omega
    exact ⟨0, code, by omega, hlt, hlt.le, Or.inl rfl⟩
  · obtain ⟨e, he⟩ : ∃ e, code / 2 ^ f.fraction = e + 1 := Nat.exists_eq_add_of_le' h
    have hlt : 2 ^ f.fraction + code % 2 ^ f.fraction < 2 ^ (f.fraction + 1) := by
      rw [Nat.pow_succ]
      omega
    refine ⟨e, 2 ^ f.fraction + code % 2 ^ f.fraction, ?_, hlt, hlt.le,
      Or.inr (Nat.le_add_right ..)⟩
    calc code = 2 ^ f.fraction * (e + 1) + code % 2 ^ f.fraction := by rw [← he, hdiv]
      _ = e * 2 ^ f.fraction + (2 ^ f.fraction + code % 2 ^ f.fraction) := by ring

/-! ### The order of magnitudes -/

theorem magnitude_succ {shift count : ℕ} (hlt : count < 2 ^ (f.fraction + 1))
    (h : InPiece f shift count) :
    magnitude f (shift * 2 ^ f.fraction + count + 1)
      = magnitude f (shift * 2 ^ f.fraction + count) + 2 ^ shift := by
  have hsucc : InPiece f shift (count + 1) := ⟨hlt, h.2.imp_right fun h => Nat.le_succ_of_le h⟩
  rw [magnitude_piece h, Nat.add_assoc, magnitude_piece hsucc]
  ring

theorem magnitude_strictMono (f : Format) : StrictMono (magnitude f) := by
  refine strictMono_nat_of_lt_succ fun code => ?_
  obtain ⟨shift, count, rfl, hlt, h⟩ := exists_piece f code
  rw [magnitude_succ hlt h]
  exact Nat.lt_add_of_pos_right (Nat.two_pow_pos _)

@[simp] theorem magnitude_zero (f : Format) : magnitude f 0 = 0 := by
  simp [magnitude]

theorem magnitude_one (f : Format) : magnitude f 1 = 1 := by
  have hpiece : InPiece f 0 1 := ⟨Nat.one_le_two_pow, Or.inl rfl⟩
  simpa using magnitude_piece hpiece

/-- From a count of the piece on, magnitudes are at least `2 ^ shift` apart. -/
theorem magnitude_add_le {shift count c : ℕ} (h : InPiece f shift count)
    (hc : shift * 2 ^ f.fraction + count < c) :
    magnitude f (shift * 2 ^ f.fraction + count) + 2 ^ shift ≤ magnitude f c := by
  rcases Nat.lt_or_eq_of_le h.1 with hlt | rfl
  · rw [← magnitude_succ hlt h]
    exact (magnitude_strictMono f).monotone hc
  · -- the upper end is the lower end of the next piece
    have hcode : shift * 2 ^ f.fraction + 2 ^ (f.fraction + 1)
        = (shift + 1) * 2 ^ f.fraction + 2 ^ f.fraction := by
      rw [Nat.pow_succ]; ring
    have hnext : InPiece f (shift + 1) (2 ^ f.fraction) :=
      ⟨Nat.pow_le_pow_right Nat.two_pos (Nat.le_succ _), Or.inr le_rfl⟩
    have hlt : 2 ^ f.fraction < 2 ^ (f.fraction + 1) :=
      Nat.pow_lt_pow_right Nat.one_lt_two (Nat.lt_succ_self _)
    rw [hcode] at hc ⊢
    calc magnitude f ((shift + 1) * 2 ^ f.fraction + 2 ^ f.fraction) + 2 ^ shift
        ≤ magnitude f ((shift + 1) * 2 ^ f.fraction + 2 ^ f.fraction) + 2 ^ (shift + 1) :=
          Nat.add_le_add_left (Nat.pow_le_pow_right Nat.two_pos (Nat.le_succ _)) _
      _ = magnitude f ((shift + 1) * 2 ^ f.fraction + 2 ^ f.fraction + 1) :=
          (magnitude_succ hlt hnext).symm
      _ ≤ magnitude f c := (magnitude_strictMono f).monotone hc

/-- Down to the lower end of a piece, magnitudes are at least `2 ^ shift` apart too. -/
theorem magnitude_add_le_of_lt {shift count c : ℕ} (h : InPiece f shift count)
    (hlt : 2 ^ f.fraction < count) (hc : c < shift * 2 ^ f.fraction + count) :
    magnitude f c + 2 ^ shift ≤ magnitude f (shift * 2 ^ f.fraction + count) := by
  obtain ⟨k, rfl⟩ : ∃ k, count = k + 1 :=
    Nat.exists_eq_add_of_le' (Nat.zero_lt_of_lt hlt)
  have hk : InPiece f shift k := ⟨Nat.le_of_succ_le h.1, Or.inr (Nat.le_of_lt_succ hlt)⟩
  rw [← Nat.add_assoc, magnitude_succ h.1 hk]
  exact Nat.add_le_add_right ((magnitude_strictMono f).monotone (Nat.le_of_lt_succ hc)) _

/-! ### Numbers that are magnitudes -/

/-- A number of at most `fraction + 1` digits, moved up by `j` places, is a magnitude. -/
theorem exists_magnitude_eq {k : ℕ} (hk : k < 2 ^ (f.fraction + 1)) (j : ℕ) :
    ∃ code, magnitude f code = k * 2 ^ j := by
  induction j generalizing k with
  | zero =>
    have hpiece : InPiece f 0 k := ⟨hk.le, Or.inl rfl⟩
    exact ⟨0 * 2 ^ f.fraction + k, magnitude_piece hpiece⟩
  | succ j ih =>
    rcases Nat.lt_or_ge k (2 ^ f.fraction) with hlt | hge
    · -- room for one more digit: take one place from the power
      obtain ⟨code, hcode⟩ := ih (k := 2 * k) (by rw [Nat.pow_succ]; omega)
      exact ⟨code, by rw [hcode, Nat.pow_succ]; ring⟩
    · exact ⟨(j + 1) * 2 ^ f.fraction + k, magnitude_piece ⟨hk.le, Or.inr hge⟩⟩

/-- The number of leading digits and the power of two of a magnitude. -/
theorem exists_eq_mul_two_pow (f : Format) (code : ℕ) :
    ∃ k j, k < 2 ^ (f.fraction + 1) ∧ magnitude f code = k * 2 ^ j := by
  obtain ⟨shift, count, rfl, hlt, h⟩ := exists_piece f code
  exact ⟨count, shift, hlt, magnitude_piece h⟩

/-! ### Constants of a format -/

namespace Format

/-- There is a fraction digit, so that pieces begin at even codes. -/
theorem exists_two_pow_fraction (f : Format) : ∃ k, 2 ^ f.fraction = 2 * k :=
  dvd_pow_self 2 f.fraction_pos.ne'

theorem bias_pos (f : Format) : 0 < f.bias := by
  have h := f.one_lt_exponent
  have hpow : 2 ^ 1 ≤ 2 ^ (f.exponent - 1) := Nat.pow_le_pow_right Nat.two_pos (by omega)
  rw [bias]
  omega

theorem scale_pos (f : Format) : 0 < f.scale :=
  Nat.two_pow_pos _

/-- The full exponent field is odd, and one more than twice the bias. -/
theorem two_pow_exponent (f : Format) : 2 ^ f.exponent = 2 * f.bias + 2 := by
  obtain ⟨e, he⟩ : ∃ e, f.exponent = e + 1 := Nat.exists_eq_add_of_le' f.one_lt_exponent.le
  have hb := Nat.two_pow_pos e
  rw [bias, he, Nat.add_sub_cancel, Nat.pow_succ]
  omega

end Format

theorem magnitude_oneCode (f : Format) : magnitude f f.oneCode = f.scale := by
  have hp : 0 < 2 ^ f.fraction := Nat.two_pow_pos _
  have hb := f.bias_pos
  simp only [magnitude, Format.oneCode, Nat.mul_div_cancel _ hp, Nat.mul_mod_left, Nat.add_zero]
  rw [if_neg (by omega), Format.scale, Format.quantumExponent, ← Nat.pow_add]
  congr 1
  omega

/-- Finite data end below `2 ^ (bias + 1)`. -/
theorem magnitude_infinityCode (f : Format) :
    magnitude f f.infinityCode = 2 ^ (f.bias + 1) * f.scale := by
  have hp : 0 < 2 ^ f.fraction := Nat.two_pow_pos _
  have hb := f.bias_pos
  have he := f.two_pow_exponent
  simp only [magnitude, Format.infinityCode, Nat.mul_div_cancel _ hp, Nat.mul_mod_left,
    Nat.add_zero]
  rw [if_neg (by omega), Format.scale, Format.quantumExponent, ← Nat.pow_add, ← Nat.pow_add]
  congr 1
  omega

theorem Format.infinityCode_pos (f : Format) : 0 < f.infinityCode :=
  Nat.mul_pos (by have := f.two_pow_exponent; omega) (Nat.two_pow_pos _)

theorem Format.oneCode_pos (f : Format) : 0 < f.oneCode :=
  Nat.mul_pos f.bias_pos (Nat.two_pow_pos _)

theorem Format.oneCode_lt_infinityCode (f : Format) : f.oneCode < f.infinityCode := by
  have he := f.two_pow_exponent
  exact Nat.mul_lt_mul_of_pos_right (by omega) (Nat.two_pow_pos _)

namespace Binary

/-! ### Classes -/

theorem code_le_of_isNaN {b : Binary f} (h : b.isNaN = false) : b.code ≤ f.infinityCode := by
  simpa [isNaN] using h

theorem code_lt_of_isFinite {b : Binary f} (h : b.isFinite = true) : b.code < f.infinityCode := by
  simpa [isFinite] using h

theorem isInfinite_or_isFinite {b : Binary f} (h : b.isNaN = false) :
    b.isInfinite = true ∨ b.isFinite = true := by
  have := code_le_of_isNaN h
  rcases Nat.lt_or_eq_of_le this with hlt | heq
  · exact Or.inr (by simpa [isFinite] using hlt)
  · exact Or.inl (by simpa [isInfinite] using heq)

theorem isNaN_of_isInfinite {a : Binary f} (h : a.isInfinite = true) : a.isNaN = false := by
  have : a.code = f.infinityCode := by simpa [isInfinite] using h
  simp [isNaN, this]

theorem isNaN_of_isFinite {a : Binary f} (h : a.isFinite = true) : a.isNaN = false := by
  simpa [isNaN] using (code_lt_of_isFinite h).le

theorem isInfinite_of_isFinite {a : Binary f} (h : a.isFinite = true) : a.isInfinite = false := by
  simpa [isInfinite] using (code_lt_of_isFinite h).ne

theorem isZero_of_isInfinite {a : Binary f} (h : a.isInfinite = true) : a.isZero = false := by
  have : a.code = f.infinityCode := by simpa [isInfinite] using h
  simpa [isZero, this] using f.infinityCode_pos.ne'

theorem eq_of_isInfinite {a b : Binary f} (ha : a.isInfinite = true) (hb : b.isInfinite = true)
    (hs : a.negative = b.negative) : a = b := by
  refine eq_of_negative_of_code hs ?_
  rw [show a.code = f.infinityCode by simpa [isInfinite] using ha,
    show b.code = f.infinityCode by simpa [isInfinite] using hb]

/-! ### Constants among the data -/

theorem code_ofCode_of_lt {s : Bool} {c : ℕ} (h : c ≤ f.infinityCode) :
    (ofCode f s c).code = c := by
  rw [code_ofCode, Nat.mod_eq_of_lt (h.trans_lt f.infinityCode_lt)]

theorem isNaN_nan (f : Format) : (nan f).isNaN = true := by
  have hpos := Nat.two_pow_pos (f.fraction - 1)
  rw [isNaN, nan, code_ofCode, Nat.mod_eq_of_lt f.nanCode_lt, Format.nanCode]
  exact decide_eq_true (by omega)

theorem isInfinite_infinity (f : Format) (s : Bool) : (infinity f s).isInfinite = true := by
  have hcode : (infinity f s).code = f.infinityCode := code_ofCode_of_lt le_rfl
  simp [isInfinite, hcode]

theorem code_neg (b : Binary f) : b.neg.code = b.code := by
  rw [neg, code_ofCode, Nat.mod_eq_of_lt b.code_lt]

theorem negative_neg (b : Binary f) : b.neg.negative = !b.negative :=
  negative_ofCode ..

theorem isNaN_neg (b : Binary f) : b.neg.isNaN = b.isNaN := by
  rw [isNaN, isNaN, code_neg]

theorem neg_ne_self (b : Binary f) : b.neg ≠ b := fun h => by
  simpa [negative_neg] using congrArg negative h

theorem code_one (f : Format) : (one f).code = f.oneCode :=
  code_ofCode_of_lt f.oneCode_lt_infinityCode.le

theorem isNaN_one (f : Format) : (one f).isNaN = false := by
  simpa [isNaN, code_one] using f.oneCode_lt_infinityCode.le

theorem isNaN_negativeZero (f : Format) : (negativeZero f).isNaN = false := by
  simp [isNaN, negativeZero]

theorem isNegativeZero_iff {b : Binary f} : b.isNegativeZero = true ↔ b = negativeZero f := by
  refine ⟨fun h => ?_, fun h => by simp [h, isNegativeZero, isZero, negativeZero]⟩
  obtain ⟨hz, hneg⟩ : b.code = 0 ∧ b.negative = true := by
    simpa [isNegativeZero, isZero] using h
  exact eq_of_negative_of_code (by simp [hneg, negativeZero]) (by simp [hz, negativeZero])

end Binary

end ConstFold
