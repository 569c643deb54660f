import ConstFold.Proofs.Binary.Rounding
import ConstFold.Proofs.Binary.Truncation
import ConstFold.Proofs.Value.Convert

/-!
# Conversions that round

Four conversions take an integer to a float kind, and one takes a double to a single. They are the
conversions that can lose digits, and what they lose is as little as possible: no finite datum of
the destination is nearer to the exact number, and of two that are equally near the one with the
even significand is taken. Everything here is about the exact number of the source, so a long
integer is rounded to a single once, not by way of a double.

Integers stay finite. A double does not if it reaches the midpoint above the greatest single,
`2 ^ 128 - 2 ^ 103`, and vanishes up to the midpoint below the least positive one, `2 ^ -150`; its
sign is kept in either case.

The two float kinds meet the two integer kinds in four conversions back. They round toward zero, and
differ in where the digits of a float are: those of a single run out above the point long before the
ends of the integers, those of a double only before the ends of the long ones. What is the same in
all four is `Binary.IsTruncated`, which does not mention digits. What is not the same is the last
float before the upper end: a double has digits left to put a fraction on a number of 31 bits.

## Main definitions

* `Binary.IsRoundedInt` — the datum to which an integer is rounded
* `Binary.IsNarrowed` — the single to which a double is rounded

## Main results

* `Value.convert_int_nearest` — integers to floats
* `Value.convert_double_nearest` — doubles to singles
* `Value.convert_float_truncated` — floats to integers
-/

namespace ConstFold

namespace Binary

variable {f : Format}

/-! ### Integers to floats -/

/-- `r` is a datum nearest to the integer `n`, the even one of two, with the sign bit of `n`. -/
structure IsRoundedInt (n : ℤ) (r : Binary f) : Prop extends IsNearestEven (n : ℚ) r where
  negative : r.negative = decide (n < 0)
  zero : n = 0 → r = .zero f

theorem ofInt_zero (f : Format) : ofInt f 0 = zero f := by
  rw [ofInt, Int.natAbs_zero, Nat.zero_mul, roundQuotient_zero f Nat.one_pos]
  rfl

theorem isRoundedInt_ofWord {w : ℕ} (hw : w ≤ f.bias) (v : BitVec w) :
    IsRoundedInt v.toInt (ofWord f v) where
  toIsNearestEven := isNearestEven_ofWord hw v
  negative := negative_ofInt f v.toInt
  zero h := by rw [ofWord, h, ofInt_zero]

/-! ### Doubles to singles -/

/-- `r` is the single to which a double `x` is rounded. The bound of overflow lies half a unit above
the greatest finite single, and that of underflow at half the least positive one; both ties go to
the even significand, which is the infinity above and the zero below. -/
structure IsNarrowed (x : Binary .binary64) (r : Binary .binary32) : Prop where
  nan : x.isNaN = true → r = .nan _
  /-- The sign is kept, also by a zero and by what overflows or vanishes. -/
  negative : x.isNaN = false → r.negative = x.negative
  infinite : x.isInfinite = true → r.isInfinite = true
  overflow : x.isFinite = true → 2 ^ 128 - 2 ^ 103 ≤ |x.toRat| → r.isInfinite = true
  nearest : x.isFinite = true → |x.toRat| < 2 ^ 128 - 2 ^ 103 → r.IsNearestEven x.toRat
  /-- Half of the least positive single vanishes, and nothing greater does. -/
  underflow : x.isFinite = true → (r.isZero = true ↔ |x.toRat| ≤ 1 / 2 ^ 150)

theorem scale_binary32 : (Format.binary32.scale : ℚ) = 2 ^ 149 := by
  norm_num [Format.scale, Format.quantumExponent, Format.bias, Format.binary32]

theorem isNarrowed_convert (x : Binary .binary64) : x.IsNarrowed (x.convert .binary32) where
  nan h := convert_of_isNaN h _
  negative h := negative_convert h _
  infinite h := by
    rw [convert_of_isInfinite h]
    exact isInfinite_infinity ..
  overflow h := by
    rw [← overflowBound_binary32]
    exact (roundsTo_convert h _).overflow
  nearest h := by
    rw [← overflowBound_binary32]
    exact (roundsTo_convert h _).isNearestEven
  underflow h := by
    have hpow : 2 * (|x.toRat| * 2 ^ 149) = |x.toRat| * 2 ^ 150 := by ring
    rw [(roundsTo_convert h _).isZero_iff, scale_binary32, hpow, le_div_iff₀ (by positivity)]

end Binary

namespace Value

/-- **Integers are converted to the nearest float.** Each of the four conversions gives a finite
datum, to which no other is preferred, with the sign of the integer; and a double holds every 32-bit
integer. -/
theorem convert_int_nearest :
    (∀ n : BitVec 32, (int32 n).convert .float32 = .ok (float32 (.ofWord _ n)) ∧
      (Binary.ofWord .binary32 n).IsRoundedInt n.toInt) ∧
    (∀ n : BitVec 32, (int32 n).convert .float64 = .ok (float64 (.ofWord _ n)) ∧
      (Binary.ofWord .binary64 n).IsRoundedInt n.toInt ∧
      (Binary.ofWord .binary64 n).toRat = n.toInt) ∧
    (∀ n : BitVec 64, (int64 n).convert .float32 = .ok (float32 (.ofWord _ n)) ∧
      (Binary.ofWord .binary32 n).IsRoundedInt n.toInt) ∧
    ∀ n : BitVec 64, (int64 n).convert .float64 = .ok (float64 (.ofWord _ n)) ∧
      (Binary.ofWord .binary64 n).IsRoundedInt n.toInt := by
  refine ⟨?_, ?_, ?_, ?_⟩
  · intro n
    exact ⟨rfl, Binary.isRoundedInt_ofWord (by decide) n⟩
  · intro n
    exact ⟨rfl, Binary.isRoundedInt_ofWord (by decide) n, Binary.toRat_ofInt (holds_toInt n)⟩
  · intro n
    exact ⟨rfl, Binary.isRoundedInt_ofWord (by decide) n⟩
  · intro n
    exact ⟨rfl, Binary.isRoundedInt_ofWord (by decide) n⟩

/-- On its way through a double the last digit would get lost that decides the rounding. -/
example : (int64 0x1000001000000001#64).convertAll [.float32]
      = .ok (float32 (.ofCode _ false 0x5d800001)) ∧
    (int64 0x1000001000000001#64).convertAll [.float64, .float32]
      = .ok (float32 (.ofCode _ false 0x5d800000)) := by
  constructor <;> decide +kernel

/-- **Doubles are converted to the nearest single**, whatever their bits. -/
theorem convert_double_nearest (x : Binary .binary64) :
    (float64 x).convert .float32 = .ok (float32 (x.convert _)) ∧
      x.IsNarrowed (x.convert .binary32) :=
  ⟨rfl, Binary.isNarrowed_convert x⟩

/-- The last double that vanishes and the first that does not, and the last one that stays finite
and the first that does not. -/
example : (Binary.ofCode .binary64 true 0x3690000000000000).convert .binary32 = .negativeZero _ ∧
    (Binary.ofCode .binary64 true 0x3690000000000001).convert .binary32 = .ofCode _ true 1 ∧
    (Binary.ofCode .binary64 true 0x47efffffefffffff).convert .binary32
      = .ofCode _ true 0x7f7fffff ∧
    (Binary.ofCode .binary64 true 0x47effffff0000000).convert .binary32 = .infinity _ true := by
  refine ⟨?_, ?_, ?_, ?_⟩ <;> decide +kernel

/-! ### Floats to integers -/

/-- **Floats are rounded toward zero and cut off at the ends of the integers**, whatever their
bits. The last float before the upper end is exact, but for doubles that become ints: a double has
more digits than an int has bits, so that one has a fraction, and becomes the greatest int. -/
theorem convert_float_truncated :
    (∀ x : Binary .binary32, (float32 x).convert .int32 = .ok (int32 (x.toWord 32)) ∧
      x.IsTruncated (x.toWord 32) ∧
      (x.IsGreatestBelow (2 ^ 31) → ((x.toWord 32).toInt : ℚ) = x.toRat)) ∧
    (∀ x : Binary .binary32, (float32 x).convert .int64 = .ok (int64 (x.toWord 64)) ∧
      x.IsTruncated (x.toWord 64) ∧
      (x.IsGreatestBelow (2 ^ 63) → ((x.toWord 64).toInt : ℚ) = x.toRat)) ∧
    (∀ x : Binary .binary64, (float64 x).convert .int32 = .ok (int32 (x.toWord 32)) ∧
      x.IsTruncated (x.toWord 32) ∧
      (x.IsGreatestBelow (2 ^ 31) → x.toWord 32 = BitVec.intMax 32)) ∧
    ∀ x : Binary .binary64, (float64 x).convert .int64 = .ok (int64 (x.toWord 64)) ∧
      x.IsTruncated (x.toWord 64) ∧
      (x.IsGreatestBelow (2 ^ 63) → ((x.toWord 64).toInt : ℚ) = x.toRat) := by
  refine ⟨?_, ?_, ?_, ?_⟩
  · intro x
    exact ⟨rfl, Binary.isTruncated_toWord (by decide) (by decide) x,
      fun h => h.toInt_toWord_eq (by decide) (by decide)⟩
  · intro x
    exact ⟨rfl, Binary.isTruncated_toWord (by decide) (by decide) x,
      fun h => h.toInt_toWord_eq (by decide) (by decide)⟩
  · intro x
    exact ⟨rfl, Binary.isTruncated_toWord (by decide) (by decide) x,
      fun h => h.toWord_eq_intMax (by decide) (by decide) (by decide)⟩
  · intro x
    exact ⟨rfl, Binary.isTruncated_toWord (by decide) (by decide) x,
      fun h => h.toInt_toWord_eq (by decide) (by decide)⟩

/-- The greatest single below `2 ^ 31` and the greatest double below `2 ^ 63` are exact. -/
theorem convert_float_truncated_greatest :
    ((Binary.ofCode .binary32 false 0x4effffff).IsGreatestBelow (2 ^ 31) ∧
      (float32 (.ofCode _ false 0x4effffff)).convert .int32 = .ok (int32 0x7fffff80#32) ∧
      ((0x7fffff80#32).toInt : ℚ) = (Binary.ofCode .binary32 false 0x4effffff).toRat) ∧
    (Binary.ofCode .binary64 false 0x43dfffffffffffff).IsGreatestBelow (2 ^ 63) ∧
      (float64 (.ofCode _ false 0x43dfffffffffffff)).convert .int64
        = .ok (int64 0x7ffffffffffffc00#64) ∧
      ((0x7ffffffffffffc00#64).toInt : ℚ)
        = (Binary.ofCode .binary64 false 0x43dfffffffffffff).toRat := by
  have hsingle : (Binary.ofCode .binary32 false 0x4effffff).IsGreatestBelow (2 ^ 31) :=
    Binary.isGreatestBelow_ofCode (by decide) (by decide +kernel)
  have hdouble : (Binary.ofCode .binary64 false 0x43dfffffffffffff).IsGreatestBelow (2 ^ 63) :=
    Binary.isGreatestBelow_ofCode (by decide) (by decide +kernel)
  have hint : (Binary.ofCode .binary32 false 0x4effffff).toWord 32 = 0x7fffff80#32 := by
    decide +kernel
  have hlong : (Binary.ofCode .binary64 false 0x43dfffffffffffff).toWord 64
      = 0x7ffffffffffffc00#64 := by
    decide +kernel
  obtain ⟨hfromSingle, -, -, hfromDouble⟩ := convert_float_truncated
  obtain ⟨hconvert, -, hexact⟩ := hfromSingle (.ofCode _ false 0x4effffff)
  obtain ⟨hconvert', -, hexact'⟩ := hfromDouble (.ofCode _ false 0x43dfffffffffffff)
  rw [hint] at hconvert hexact
  rw [hlong] at hconvert' hexact'
  exact ⟨⟨hsingle, hconvert, hexact hsingle⟩, hdouble, hconvert', hexact' hdouble⟩

/-- **The greatest double below `2 ^ 31` is not exact** as an int: it has a fraction. -/
theorem convert_greatest_double_inexact :
    (Binary.ofCode .binary64 false 0x41dfffffffffffff).IsGreatestBelow (2 ^ 31) ∧
      (float64 (.ofCode _ false 0x41dfffffffffffff)).convert .int32 = .ok (int32 0x7fffffff#32) ∧
      ((0x7fffffff#32).toInt : ℚ)
        ≠ (Binary.ofCode .binary64 false 0x41dfffffffffffff).toRat := by
  have hquanta : (0x7fffffff#32).toInt * Format.binary64.scale
      ≠ (Binary.ofCode .binary64 false 0x41dfffffffffffff).quanta := by
    decide +kernel
  refine ⟨Binary.isGreatestBelow_ofCode (by decide) (by decide +kernel),
    by decide +kernel, fun heq => hquanta ?_⟩
  rw [Binary.toRat_eq_quanta_div, eq_div_iff (Binary.scale_cast_pos _).ne'] at heq
  exact_mod_cast heq

/-- The number `-2 ^ 31`, and the negative double nearest to zero. -/
example : (float32 (.ofCode _ true 0x4f000000)).convert .int32 = .ok (int32 0x80000000#32) ∧
    (float64 (.ofCode _ true 1)).convert .int64 = .ok (int64 0#64) := by
  decide +kernel

end Value

end ConstFold
