import ConstFold.Proofs.Binary.Truncation
import ConstFold.Proofs.Value.RoundTrip

/-!
# Integers that survive a float

An integer converted to a float kind and back is itself again if the float kind holds it: if its
binary digits, the zeros at the end apart, are no more than a significand has. That this is not the
only way back is due to saturation. The greatest word has too many digits, is rounded up to the
power of two above it, and is the word at which that power is cut off. No other integer comes back
from there, and one that comes back without being cut off is a truncated datum, which the float kind
holds.

## Main definitions

* `FitsDigits` — an integer of a number of binary digits, zeros at the end apart
* `Format.RoundsUpEnd` — the greatest word comes back only because it is cut off

## Main results

* `Format.holds_iff_fitsDigits` — the integers of a format, by their digits
* `toWord_ofWord_eq_iff` — the words that come back
* `Value.convertAll_eq_self_iff` — the integers that come back, for each pair of kinds
-/

namespace ConstFold

variable {f : Format}

/-! ### Digits -/

/-- An integer of at most `digits` binary digits, moved up by some places: its zeros at the end do
not count as digits. -/
def FitsDigits (digits : ℕ) (n : ℤ) : Prop :=
  ∃ (m : ℤ) (k : ℕ), n = m * 2 ^ k ∧ |m| < 2 ^ digits

theorem fitsDigits_iff_natAbs {digits : ℕ} {n : ℤ} :
    FitsDigits digits n ↔ ∃ m k : ℕ, n.natAbs = m * 2 ^ k ∧ m < 2 ^ digits := by
  constructor
  · rintro ⟨m, k, rfl, hm⟩
    refine ⟨m.natAbs, k, by rw [Int.natAbs_mul, Int.natAbs_pow]; rfl, ?_⟩
    zify
    exact hm
  · rintro ⟨m, k, hn, hm⟩
    refine ⟨n.sign * m, k, ?_, ?_⟩
    · calc n = n.sign * n.natAbs := (Int.sign_mul_natAbs n).symm
        _ = n.sign * m * 2 ^ k := by rw [hn]; push_cast; ring
    · have hsign : |n.sign| ≤ 1 := by
        rcases lt_trichotomy n 0 with h | rfl | h
        · simp [Int.sign_eq_neg_one_of_neg h]
        · simp
        · simp [Int.sign_eq_one_of_pos h]
      rw [abs_mul, Nat.abs_cast]
      calc |n.sign| * m ≤ 1 * m := mul_le_mul_of_nonneg_right hsign (Int.natCast_nonneg m)
        _ = m := one_mul _
        _ < 2 ^ digits := by exact_mod_cast hm

/-- Without zeros at the end all digits count. -/
theorem FitsDigits.abs_lt_of_odd {digits : ℕ} {n : ℤ} (h : FitsDigits digits n) (hn : n % 2 = 1) :
    |n| < 2 ^ digits := by
  obtain ⟨m, k, rfl, hm⟩ := h
  cases k with
  | zero => simpa using hm
  | succ k =>
    rw [pow_succ, ← mul_assoc] at hn
    omega

/-- **A format holds the integers that have few enough digits**, and are in its range. -/
theorem Format.holds_iff_fitsDigits {n : ℤ} (hn : n.natAbs < 2 ^ (f.bias + 1)) :
    f.Holds n ↔ FitsDigits (f.fraction + 1) n := by
  rw [fitsDigits_iff_natAbs]
  constructor
  · rintro ⟨code, -, hcode⟩
    obtain ⟨m, j, hm, hmag⟩ := exists_eq_mul_two_pow f code
    have hnum : n.natAbs * 2 ^ f.quantumExponent = m * 2 ^ j := hcode.symm.trans hmag
    rcases Nat.le_total f.quantumExponent j with hle | hle
    · obtain ⟨k, rfl⟩ := Nat.exists_eq_add_of_le hle
      refine ⟨m, k, Nat.eq_of_mul_eq_mul_right (Nat.two_pow_pos f.quantumExponent) ?_, hm⟩
      rw [hnum, Nat.pow_add]
      ring
    · -- the digits past the point are zeros
      have hpow : 2 ^ j ≤ 2 ^ f.quantumExponent := Nat.pow_le_pow_right Nat.two_pos hle
      have hmul : n.natAbs * 2 ^ j ≤ m * 2 ^ j :=
        (Nat.mul_le_mul_left _ hpow).trans hnum.le
      have hle' : n.natAbs ≤ m := Nat.le_of_mul_le_mul_right hmul (Nat.two_pow_pos j)
      exact ⟨n.natAbs, 0, by simp, hle'.trans_lt hm⟩
  · rintro ⟨m, k, hnum, hm⟩
    obtain ⟨code, hcode⟩ := exists_magnitude_eq hm (k + f.quantumExponent)
    have hmag : magnitude f code = n.natAbs * f.scale := by
      rw [hcode, hnum, Nat.pow_add, Format.scale, Nat.mul_assoc]
    refine ⟨code, ?_, hmag⟩
    rw [← (magnitude_strictMono f).lt_iff_lt, hmag, magnitude_infinityCode]
    exact Nat.mul_lt_mul_of_pos_right hn f.scale_pos

namespace Binary

/-! ### Words -/

theorem natAbs_toInt_lt_of_le {w : ℕ} (hw : w ≤ f.bias) (v : BitVec w) :
    v.toInt.natAbs < 2 ^ (f.bias + 1) := by
  have hpow : (2 : ℤ) ^ w < 2 ^ (f.bias + 1) :=
    pow_lt_pow_right₀ one_lt_two (Nat.lt_succ_of_le hw)
  zify
  exact (abs_toInt_le v).trans_lt hpow

theorem fitsDigits_intMin {digits w : ℕ} (hdigits : 0 < digits) (hw : 0 < w) :
    FitsDigits digits (BitVec.intMin w).toInt := by
  refine ⟨-1, w - 1, ?_, ?_⟩
  · rw [BitVec.toInt_intMin_of_pos hw]
    ring
  · rw [abs_neg, abs_one]
    exact one_lt_pow₀ one_lt_two hdigits.ne'

/-- **The words that come back from a format** are those it holds and the greatest one. What comes
back is either an end of the words or an integer of the format; of the ends the least one is held,
and the greatest is rounded up and cut off again. -/
theorem toWord_ofWord_eq_iff {w : ℕ} (hw : 0 < w) (hbias : w ≤ f.bias)
    (hends : f.ReturnsEnds w) (v : BitVec w) :
    (ofWord f v).toWord w = v ↔ FitsDigits (f.fraction + 1) v.toInt ∨ v = BitVec.intMax w := by
  have hholds := Format.holds_iff_fitsDigits (natAbs_toInt_lt_of_le hbias v)
  constructor
  · intro h
    rcases toWord_eq_or_holds (ofWord f v) w with hmin | hmax | hexact
    · left
      rw [h] at hmin
      rw [hmin]
      exact fitsDigits_intMin (Nat.succ_pos _) hw
    · right
      rw [← h, hmax]
    · left
      rw [h] at hexact
      exact hholds.mp hexact
  · rintro (hdigits | rfl)
    · exact toWord_ofWord (hholds.mpr hdigits)
    · exact hends.intMax

end Binary

/-- The greatest word has too many digits for the format. It is rounded up to a power of two, and
comes back because that one is cut off. -/
structure Format.RoundsUpEnd (f : Format) (w : ℕ) : Prop where
  not_fitsDigits : ¬ FitsDigits (f.fraction + 1) (BitVec.intMax w).toInt
  toRat : (Binary.ofWord f (BitVec.intMax w)).toRat = 2 ^ (w - 1)
  toWord : (Binary.ofWord f (BitVec.intMax w)).toWord w = BitVec.intMax w

theorem Format.roundsUpEnd {w : ℕ} (hdigits : f.fraction + 2 < w) (hbias : w ≤ f.bias)
    (hends : f.ReturnsEnds w)
    (hround : Binary.ofWord f (BitVec.intMax w) = .ofInt f (2 ^ (w - 1))) : f.RoundsUpEnd w where
  not_fitsDigits h := by
    obtain ⟨k, rfl⟩ : ∃ k, w = k + 2 := Nat.exists_eq_add_of_le' (by omega)
    rw [BitVec.toInt_intMax, show k + 2 - 1 = k + 1 from rfl] at h
    have hpow : (2 : ℤ) ^ (f.fraction + 1) ≤ 2 ^ k := pow_le_pow_right₀ (by decide) (by omega)
    have hpos : (0 : ℤ) < 2 ^ k := by positivity
    have hlt := h.abs_lt_of_odd (by rw [pow_succ]; omega)
    rw [pow_succ, abs_of_nonneg (by omega)] at hlt
    omega
  toRat := by
    rw [hround, Binary.toRat_ofInt (Binary.holds_two_pow (by omega))]
    push_cast
    rfl
  toWord := hends.intMax

namespace Value

/-- **An integer survives a trip through a float** exactly if the float has enough digits for it, or
if it is the greatest of its kind. A double has enough digits for every 32-bit integer. -/
theorem convertAll_eq_self_iff :
    (∀ n : BitVec 32, (int32 n).convertAll [.float32, .int32] = .ok (int32 n) ↔
      FitsDigits 24 n.toInt ∨ n = BitVec.intMax 32) ∧
    (∀ n : BitVec 64, (int64 n).convertAll [.float32, .int64] = .ok (int64 n) ↔
      FitsDigits 24 n.toInt ∨ n = BitVec.intMax 64) ∧
    (∀ n : BitVec 64, (int64 n).convertAll [.float64, .int64] = .ok (int64 n) ↔
      FitsDigits 53 n.toInt ∨ n = BitVec.intMax 64) ∧
    (∀ n : BitVec 32, (int32 n).convertAll [.float64, .int32] = .ok (int32 n)) ∧
    Format.binary32.RoundsUpEnd 32 ∧ Format.binary32.RoundsUpEnd 64 ∧
      Format.binary64.RoundsUpEnd 64 := by
  refine ⟨?_, ?_, ?_, ?_, ?_, ?_, ?_⟩
  · intro n
    show Except.ok (int32 ((Binary.ofWord .binary32 n).toWord 32)) = .ok (int32 n) ↔ _
    rw [Except.ok.injEq, int32.injEq]
    exact Binary.toWord_ofWord_eq_iff (by decide) (by decide) binary32_returnsEnds_32 n
  · intro n
    show Except.ok (int64 ((Binary.ofWord .binary32 n).toWord 64)) = .ok (int64 n) ↔ _
    rw [Except.ok.injEq, int64.injEq]
    exact Binary.toWord_ofWord_eq_iff (by decide) (by decide) binary32_returnsEnds_64 n
  · intro n
    show Except.ok (int64 ((Binary.ofWord .binary64 n).toWord 64)) = .ok (int64 n) ↔ _
    rw [Except.ok.injEq, int64.injEq]
    exact Binary.toWord_ofWord_eq_iff (by decide) (by decide) binary64_returnsEnds_64 n
  · intro n
    show Except.ok (int32 ((Binary.ofWord .binary64 n).toWord 32)) = .ok (int32 n)
    rw [toWord_ofWord_int32]
  · exact Format.roundsUpEnd (by decide) (by decide) binary32_returnsEnds_32 (by decide +kernel)
  · exact Format.roundsUpEnd (by decide) (by decide) binary32_returnsEnds_64 (by decide +kernel)
  · exact Format.roundsUpEnd (by decide) (by decide) binary64_returnsEnds_64 (by decide +kernel)

/-- The neighbour of the greatest 32-bit integer is rounded up as well, and is lost. -/
example : (int32 0x7ffffffe#32).convertAll [.float32, .int32] = .ok (int32 0x7fffffff#32) := by
  decide +kernel

end Value

end ConstFold
