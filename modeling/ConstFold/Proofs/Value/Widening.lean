import ConstFold.Proofs.Binary.Monotone
import ConstFold.Proofs.Binary.Rounding
import ConstFold.Proofs.Value.Convert

/-!
# Singles among the doubles

Every single is a double: widening keeps the sign and the exact number, and narrowing gives the
single back. The exponents of a double reach so far down that the singles without a leading digit
get one; no single but zero is stored as a subnormal double.

So the doubles that come back from a stop at the singles are the widened ones and no others. One
direction is that widening loses nothing, the other that what comes back has just been widened.

## Main definitions

* `Binary.IsSubnormal`, `Binary.IsNormal` — finite data by their leading digit
* `Binary.IsWidened` — the datum of a larger format that holds a datum

## Main results

* `isNormal_convert` — subnormal data become normal where the exponents reach down far enough
* `Value.convert_widened` — singles as doubles and back, and which doubles come back
-/

namespace ConstFold

namespace Binary

variable {f g : Format}

/-- Finite and not zero, but without a leading digit. -/
def IsSubnormal (b : Binary f) : Prop :=
  b.exponentField = 0 ∧ b.fractionField ≠ 0

/-- Finite, with a leading digit. -/
def IsNormal (b : Binary f) : Prop :=
  b.isFinite = true ∧ b.exponentField ≠ 0

theorem IsSubnormal.isFinite {b : Binary f} (h : b.IsSubnormal) : b.isFinite = true := by
  have hexp : b.code / 2 ^ f.fraction = 0 := h.1
  have hcode : b.code < 2 ^ f.fraction := (Nat.div_eq_zero_iff_lt (Nat.two_pow_pos _)).mp hexp
  have hinf : 1 * 2 ^ f.fraction ≤ f.infinityCode := by
    refine Nat.mul_le_mul_right _ ?_
    rw [f.two_pow_exponent]
    omega
  rw [Binary.isFinite, decide_eq_true_eq]
  omega

theorem IsSubnormal.code_pos {b : Binary f} (h : b.IsSubnormal) : 0 < b.code := by
  rcases Nat.eq_zero_or_pos b.code with hz | hpos
  · exact absurd (by simp [fractionField, hz]) h.2
  · exact hpos

/-- What is below the first leading digit counts fewer quanta than the fraction field can. -/
theorem magnitude_lt_of_exponentField {b : Binary f} (h : b.exponentField = 0) :
    magnitude f b.code < 2 ^ f.fraction := by
  have hexp : b.code / 2 ^ f.fraction = 0 := h
  simpa [magnitude, hexp] using Nat.mod_lt b.code (Nat.two_pow_pos f.fraction)

/-- A datum that is not zero gets a leading digit in a format whose exponents reach down to the
quantum of its own. -/
theorem isNormal_convert (hfg : f.Within g) (hdown : 2 ^ g.fraction * f.scale ≤ g.scale)
    {b : Binary f} (h : b.isFinite = true) (hpos : 0 < b.code) : (b.convert g).IsNormal := by
  have hquot := isQuotient_convert hfg h
  refine ⟨hquot.finite, fun hexp => ?_⟩
  have hmag : 1 ≤ magnitude f b.code := by
    rw [← magnitude_one f]
    exact (magnitude_strictMono f).monotone hpos
  have hlt : magnitude g (b.convert g).code * f.scale < 2 ^ g.fraction * f.scale :=
    Nat.mul_lt_mul_of_pos_right (magnitude_lt_of_exponentField hexp) f.scale_pos
  have hge : 1 * g.scale ≤ magnitude f b.code * g.scale := Nat.mul_le_mul_right _ hmag
  rw [hquot.magnitude_mul] at hlt
  omega

/-- `y` holds the datum `x` of a smaller format. It has the number and the sign of `x`, but not
always its class: the larger range makes what was subnormal normal. -/
structure IsWidened (x : Binary f) (y : Binary g) : Prop where
  nan : x.isNaN = true → y.isNaN = true
  negative : x.isNaN = false → y.negative = x.negative
  infinite : x.isInfinite = true → y.isInfinite = true
  finite : x.isFinite = true → y.isFinite = true ∧ y.toRat = x.toRat
  normal : x.IsSubnormal → y.IsNormal

theorem isWidened_convert (hfg : f.Within g) (hdown : 2 ^ g.fraction * f.scale ≤ g.scale)
    (x : Binary f) : x.IsWidened (x.convert g) where
  nan h := by
    rw [convert_of_isNaN h]
    exact isNaN_nan g
  negative h := negative_convert h g
  infinite h := by
    rw [convert_of_isInfinite h]
    exact isInfinite_infinity ..
  finite h := by
    have hquot := isQuotient_convert hfg h
    refine ⟨hquot.finite, ?_⟩
    rw [hquot.toRat_eq f.scale_pos, (isQuotient_self h).toRat_eq f.scale_pos]
  normal h := isNormal_convert hfg hdown h.isFinite h.code_pos

end Binary

/-- The exponents of a double reach down past the least single. -/
theorem two_pow_mul_scale_binary32_le :
    2 ^ Format.binary64.fraction * Format.binary32.scale ≤ Format.binary64.scale := by
  decide +kernel

namespace Value

/-- A single comes back from the doubles. -/
theorem convertAll_float64_float32 {x : Binary .binary32} (hx : x.isNaN = false) :
    (float32 x).convertAll [.float64, .float32] = .ok (float32 x) :=
  convertAll_append (fun _ hk => keeps_float32 hx (Or.inr (List.mem_singleton.mp hk))) .float32

/-- What comes back from the singles is what they are widened to. -/
theorem convertAll_float32_float64_iff {y : Binary .binary64} (hy : y.isNaN = false) :
    (float64 y).convertAll [.float32, .float64] = .ok (float64 y) ↔
      ∃ x, (float32 x).convert .float64 = .ok (float64 y) := by
  constructor
  · intro h
    exact ⟨y.convert _, h⟩
  · rintro ⟨x, hx⟩
    obtain rfl := float64.inj (Except.ok.inj hx)
    have hnan : x.isNaN = false := by
      cases h : x.isNaN with
      | false => rfl
      | true =>
        rw [Binary.convert_of_isNaN h, Binary.isNaN_nan] at hy
        exact hy
    show Except.ok (float64 (((x.convert .binary64).convert .binary32).convert .binary64)) = _
    rw [Binary.convert_convert_self binary32_within_binary64 hnan]

/-- **Widening is exact, and narrowing undoes it.** Every single is widened to a double of the same
sign and number, from which it comes back; a NaN stays one either way; and the doubles that come
back from the singles are the widened ones. -/
theorem convert_widened :
    (∀ x : Binary .binary32, (float32 x).convert .float64 = .ok (float64 (x.convert _)) ∧
      x.IsWidened (x.convert .binary64) ∧
      (x.isNaN = false → (float32 x).convertAll [.float64, .float32] = .ok (float32 x))) ∧
    (∀ y : Binary .binary64, y.isNaN = true →
      ∃ x, (float64 y).convert .float32 = .ok (float32 x) ∧ x.isNaN = true) ∧
    ∀ y : Binary .binary64, y.isNaN = false →
      ((float64 y).convertAll [.float32, .float64] = .ok (float64 y) ↔
        ∃ x, (float32 x).convert .float64 = .ok (float64 y)) := by
  refine ⟨?_, ?_, ?_⟩
  · intro x
    exact ⟨rfl, Binary.isWidened_convert binary32_within_binary64 two_pow_mul_scale_binary32_le x,
      convertAll_float64_float32⟩
  · intro y hy
    refine ⟨_, rfl, ?_⟩
    rw [Binary.convert_of_isNaN hy]
    exact Binary.isNaN_nan _
  · intro y hy
    exact convertAll_float32_float64_iff hy

/-- The negative single nearest to zero comes back, a NaN stays one, and the double nearest to a
tenth is no single. -/
theorem convert_widened_least :
    (Binary.ofCode .binary32 true 1).isNaN = false ∧
      (float32 (.ofCode _ true 1)).convertAll [.float64, .float32]
        = .ok (float32 (.ofCode _ true 1)) ∧
      (Binary.ofCode .binary64 true 0x7ff0000000000001).isNaN = true ∧
      (∃ x, (float64 (.ofCode _ true 0x7ff0000000000001)).convert .float32 = .ok (float32 x) ∧
        x.isNaN = true) ∧
      (Binary.ofCode .binary64 false 0x3fb999999999999a).isNaN = false ∧
      ¬ ∃ x, (float32 x).convert .float64 = .ok (float64 (.ofCode _ false 0x3fb999999999999a)) := by
  have hleast : (Binary.ofCode .binary32 true 1).isNaN = false := by decide
  have hnan : (Binary.ofCode .binary64 true 0x7ff0000000000001).isNaN = true := by decide
  have htenth : (Binary.ofCode .binary64 false 0x3fb999999999999a).isNaN = false := by decide
  have hlost : (float64 (.ofCode _ false 0x3fb999999999999a)).convertAll [.float32, .float64]
      ≠ .ok (float64 (.ofCode _ false 0x3fb999999999999a)) := by decide +kernel
  obtain ⟨hsingle, hnan', hdouble⟩ := convert_widened
  exact ⟨hleast, (hsingle _).2.2 hleast, hnan, hnan' _ hnan, htenth,
    fun h => hlost ((hdouble _ htenth).mpr h)⟩

end Value

end ConstFold
