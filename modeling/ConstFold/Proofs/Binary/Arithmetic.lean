import ConstFold.Binary.Round
import ConstFold.Proofs.Binary.Rounding

/-!
# Sums and products by the standard

`IsSum a b r` and `IsProduct a b r` list the rules of the standard for an operation on data: where
the result is a NaN or an infinity, and else that it is the exact rational result, rounded. They
mention neither quanta nor `roundQuotient`, and they leave open which NaN a NaN is. `Binary.add`
and `Binary.mul` follow them, and up to the choice of a NaN nothing else does.

## Main definitions

* `Binary.EqUpToNaN` — the same bits, or two NaNs
* `Binary.IsSum`, `Binary.IsProduct`

## Main results

* `isSum_add`, `isProduct_mul` — the operations follow the rules
* `IsSum.eqUpToNaN`, `IsProduct.eqUpToNaN` — and the rules determine them
* `add_comm`, `mul_comm` — it does not matter on which side an operand stands
* `negativeZero_add`, `mul_of_code_eq_oneCode` — the operands that leave the other one alone
-/

namespace ConstFold

namespace Binary

variable {f : Format}

/-- The same bits, or two NaNs. The standard leaves the payload and the sign of a NaN that an
operation gives open, so this is as far as it determines a result. -/
def EqUpToNaN (a b : Binary f) : Prop :=
  a = b ∨ a.isNaN = true ∧ b.isNaN = true

/-- What is no NaN is identical only to itself. -/
theorem EqUpToNaN.eq {a b : Binary f} (h : a.EqUpToNaN b) (hb : b.isNaN = false) : a = b :=
  h.resolve_right fun hnan => by simp [hb] at hnan

/-! ### The rules -/

/-- The rules for the sum of two data, as a relation because any NaN will do where there is
no sum. Two infinities of one sign are in two of the cases, which agree on them. -/
inductive IsSum : Binary f → Binary f → Binary f → Prop
  /-- A NaN has no sum. -/
  | nan {a b r} (h : a.isNaN = true ∨ b.isNaN = true) (hr : r.isNaN = true) : IsSum a b r
  /-- Opposite infinities have no sum. -/
  | opposite {a b r} (ha : a.isInfinite = true) (hb : b.isInfinite = true)
      (hs : a.negative ≠ b.negative) (hr : r.isNaN = true) : IsSum a b r
  /-- An infinity absorbs what is finite, and the infinity of its own sign. -/
  | left {a b} (ha : a.isInfinite = true)
      (hb : b.isFinite = true ∨ b.isInfinite = true ∧ a.negative = b.negative) : IsSum a b a
  /-- It does so on either side. -/
  | right {a b} (ha : a.isFinite = true ∨ a.isInfinite = true ∧ a.negative = b.negative)
      (hb : b.isInfinite = true) : IsSum a b b
  /-- The exact sum is rounded. If it is zero, it is negative only if both operands are. -/
  | finite {a b r} (ha : a.isFinite = true) (hb : b.isFinite = true)
      (h : RoundsTo (a.toRat + b.toRat) r)
      (hs : a.toRat + b.toRat = 0 → r.negative = (a.negative && b.negative)) : IsSum a b r

/-- The rules for the product of two data. Other than in a sum the sign is a rule of its own: the
signs of the operands determine it also where the exact product is zero or underflows. -/
inductive IsProduct : Binary f → Binary f → Binary f → Prop
  /-- A NaN has no product. -/
  | nan {a b r} (h : a.isNaN = true ∨ b.isNaN = true) (hr : r.isNaN = true) : IsProduct a b r
  /-- An infinity and a zero have no product. -/
  | invalid {a b r} (h : a.isInfinite = true ∧ b.isZero = true ∨
      a.isZero = true ∧ b.isInfinite = true) (hr : r.isNaN = true) : IsProduct a b r
  /-- Any other product with an infinity is infinite. -/
  | infinite {a b r} (h : a.isInfinite = true ∨ b.isInfinite = true)
      (ha : a.isNaN = false ∧ a.isZero = false) (hb : b.isNaN = false ∧ b.isZero = false)
      (hr : r.isInfinite = true) (hs : r.negative = (a.negative != b.negative)) : IsProduct a b r
  /-- The exact product is rounded. -/
  | finite {a b r} (ha : a.isFinite = true) (hb : b.isFinite = true)
      (h : RoundsTo (a.toRat * b.toRat) r)
      (hs : r.negative = (a.negative != b.negative)) : IsProduct a b r

/-! ### Sums -/

theorem add_of_isNaN {a b : Binary f} (h : a.isNaN = true ∨ b.isNaN = true) :
    a.add b = nan f := by
  simp [add, h]

theorem add_of_opposite {a b : Binary f} (ha : a.isInfinite = true) (hb : b.isInfinite = true)
    (hs : a.negative ≠ b.negative) : a.add b = nan f := by
  simp [add, isNaN_of_isInfinite ha, isNaN_of_isInfinite hb, ha, hb, hs]

theorem add_of_isInfinite_left {a b : Binary f} (ha : a.isInfinite = true)
    (hb : b.isFinite = true ∨ b.isInfinite = true ∧ a.negative = b.negative) : a.add b = a := by
  rcases hb with hb | ⟨hb, hs⟩
  · simp [add, isNaN_of_isInfinite ha, isNaN_of_isFinite hb, ha, isInfinite_of_isFinite hb]
  · simp [add, isNaN_of_isInfinite ha, isNaN_of_isInfinite hb, ha, hs]

theorem add_of_isInfinite_right {a b : Binary f}
    (ha : a.isFinite = true ∨ a.isInfinite = true ∧ a.negative = b.negative)
    (hb : b.isInfinite = true) : a.add b = b := by
  rcases ha with ha | ⟨ha, hs⟩
  · simp [add, isNaN_of_isInfinite hb, isNaN_of_isFinite ha, hb, isInfinite_of_isFinite ha]
  · rw [add_of_isInfinite_left ha (Or.inr ⟨hb, hs⟩), eq_of_isInfinite ha hb hs]

theorem add_of_isFinite {a b : Binary f} (ha : a.isFinite = true) (hb : b.isFinite = true) :
    a.add b = addFinite a b := by
  simp [add, isNaN_of_isFinite ha, isNaN_of_isFinite hb, isInfinite_of_isFinite ha,
    isInfinite_of_isFinite hb]

theorem toRat_add_toRat (a b : Binary f) :
    a.toRat + b.toRat = (a.quanta + b.quanta : ℤ) / f.scale := by
  rw [toRat_eq_quanta_div, toRat_eq_quanta_div, ← add_div, Int.cast_add]

theorem roundsTo_addFinite (a b : Binary f) : RoundsTo (a.toRat + b.toRat) (addFinite a b) := by
  have hscale := scale_cast_pos f
  rw [toRat_add_toRat]
  refine roundsTo_ofCode_roundQuotient Nat.one_pos ?_ fun hq => ?_
  · rw [abs_div, abs_of_pos hscale, div_mul_cancel₀ _ hscale.ne', Nat.cast_one, div_one,
      ← Int.cast_abs, Nat.cast_natAbs]
  · have hne : a.quanta + b.quanta ≠ 0 := fun h => hq (by rw [h, Int.cast_zero, zero_div])
    rw [if_neg hne, decide_eq_decide, div_lt_iff₀ hscale, zero_mul, Int.cast_lt_zero]

theorem negative_addFinite {a b : Binary f} (h : a.toRat + b.toRat = 0) :
    (addFinite a b).negative = (a.negative && b.negative) := by
  rw [toRat_add_toRat, div_eq_zero_iff, Int.cast_eq_zero] at h
  have hz := h.resolve_right (scale_cast_pos f).ne'
  rw [addFinite, negative_ofCode, if_pos hz]

/-- **Addition follows the rules.** The finite case is the one with an argument: the sum of the
quanta is exact, so it is rounded once. -/
theorem isSum_add (a b : Binary f) : IsSum a b (a.add b) := by
  by_cases hnan : a.isNaN = true ∨ b.isNaN = true
  · rw [add_of_isNaN hnan]
    exact .nan hnan (isNaN_nan f)
  · obtain ⟨ha, hb⟩ := not_or.mp hnan
    rcases isInfinite_or_isFinite (eq_false_of_ne_true ha) with ha | ha <;>
      rcases isInfinite_or_isFinite (eq_false_of_ne_true hb) with hb | hb
    · by_cases hs : a.negative = b.negative
      · rw [add_of_isInfinite_left ha (Or.inr ⟨hb, hs⟩)]
        exact .left ha (Or.inr ⟨hb, hs⟩)
      · rw [add_of_opposite ha hb hs]
        exact .opposite ha hb hs (isNaN_nan f)
    · rw [add_of_isInfinite_left ha (Or.inl hb)]
      exact .left ha (Or.inl hb)
    · rw [add_of_isInfinite_right (Or.inl ha) hb]
      exact .right (Or.inl ha) hb
    · rw [add_of_isFinite ha hb]
      exact .finite ha hb (roundsTo_addFinite a b) negative_addFinite

/-- **The rules determine the sum**, up to the choice of a NaN. In the finite case rounding leaves
the sign of a zero open, which is where the last clause of the rules is needed. -/
theorem IsSum.eqUpToNaN {a b r : Binary f} (h : IsSum a b r) : r.EqUpToNaN (a.add b) := by
  cases h with
  | nan h hr => exact Or.inr ⟨hr, by rw [add_of_isNaN h, isNaN_nan]⟩
  | opposite ha hb hs hr => exact Or.inr ⟨hr, by rw [add_of_opposite ha hb hs, isNaN_nan]⟩
  | left ha hb => exact Or.inl (add_of_isInfinite_left ha hb).symm
  | right ha hb => exact Or.inl (add_of_isInfinite_right ha hb).symm
  | finite ha hb h hs =>
    rw [add_of_isFinite ha hb]
    exact Or.inl (h.unique (roundsTo_addFinite a b) fun hz => by rw [hs hz, negative_addFinite hz])

theorem add_comm (a b : Binary f) : a.add b = b.add a := by
  by_cases hnan : a.isNaN = true ∨ b.isNaN = true
  · rw [add_of_isNaN hnan, add_of_isNaN hnan.symm]
  · obtain ⟨ha, hb⟩ := not_or.mp hnan
    rcases isInfinite_or_isFinite (eq_false_of_ne_true ha) with ha | ha <;>
      rcases isInfinite_or_isFinite (eq_false_of_ne_true hb) with hb | hb
    · by_cases hs : a.negative = b.negative
      · rw [eq_of_isInfinite ha hb hs]
      · rw [add_of_opposite ha hb hs, add_of_opposite hb ha (Ne.symm hs)]
    · rw [add_of_isInfinite_left ha (Or.inl hb), add_of_isInfinite_right (Or.inl hb) ha]
    · rw [add_of_isInfinite_right (Or.inl ha) hb, add_of_isInfinite_left hb (Or.inl ha)]
    · rw [add_of_isFinite ha hb, add_of_isFinite hb ha, addFinite, addFinite, Int.add_comm,
        Bool.and_comm]

/-! ### Products -/

theorem mul_of_isNaN {a b : Binary f} (h : a.isNaN = true ∨ b.isNaN = true) :
    a.mul b = nan f := by
  simp [mul, h]

theorem mul_of_invalid {a b : Binary f}
    (h : a.isInfinite = true ∧ b.isZero = true ∨ a.isZero = true ∧ b.isInfinite = true) :
    a.mul b = nan f := by
  rcases h with ⟨ha, hb⟩ | ⟨ha, hb⟩ <;> simp [mul, ha, hb]

theorem mul_of_isInfinite {a b : Binary f} (h : a.isInfinite = true ∨ b.isInfinite = true)
    (ha : a.isNaN = false ∧ a.isZero = false) (hb : b.isNaN = false ∧ b.isZero = false) :
    a.mul b = infinity f (a.negative != b.negative) := by
  simp [mul, h, ha.1, ha.2, hb.1, hb.2]

theorem mul_of_isFinite {a b : Binary f} (ha : a.isFinite = true) (hb : b.isFinite = true) :
    a.mul b = ofCode f (a.negative != b.negative)
      (roundQuotient f (magnitude f a.code * magnitude f b.code) f.scale) := by
  simp [mul, isNaN_of_isFinite ha, isNaN_of_isFinite hb, isInfinite_of_isFinite ha,
    isInfinite_of_isFinite hb]

/-- The number of a sign: 1 with it. -/
theorem sign_mul_sign (a b : Binary f) :
    a.sign * b.sign = if (a.negative != b.negative) then -1 else 1 := by
  rw [sign, sign]
  cases a.negative <;> cases b.negative <;> simp

theorem roundsTo_mul {a b : Binary f} (ha : a.isFinite = true) (hb : b.isFinite = true) :
    RoundsTo (a.toRat * b.toRat) (a.mul b) := by
  have hscale := scale_cast_pos f
  rw [mul_of_isFinite ha hb]
  refine roundsTo_ofCode_roundQuotient f.scale_pos ?_ fun hq => ?_
  · rw [abs_mul, abs_toRat, abs_toRat, Nat.cast_mul]
    field_simp
  · have hpos : 0 < |a.toRat| * |b.toRat| := by
      rw [← abs_mul]
      exact abs_pos.mpr hq
    have hprod : a.toRat * b.toRat
        = (if (a.negative != b.negative) then -1 else 1) * (|a.toRat| * |b.toRat|) := by
      rw [abs_toRat, abs_toRat, ← sign_mul_sign, toRat_eq_sign_mul, toRat_eq_sign_mul]
      ring
    rw [hprod]
    cases a.negative != b.negative
    · simpa using hpos.le
    · simpa using hpos

/-- **Multiplication follows the rules.** -/
theorem isProduct_mul (a b : Binary f) : IsProduct a b (a.mul b) := by
  by_cases hnan : a.isNaN = true ∨ b.isNaN = true
  · rw [mul_of_isNaN hnan]
    exact .nan hnan (isNaN_nan f)
  obtain ⟨ha, hb⟩ := not_or.mp hnan
  have ha := eq_false_of_ne_true ha
  have hb := eq_false_of_ne_true hb
  by_cases hinv : a.isInfinite = true ∧ b.isZero = true ∨ a.isZero = true ∧ b.isInfinite = true
  · rw [mul_of_invalid hinv]
    exact .invalid hinv (isNaN_nan f)
  by_cases hinf : a.isInfinite = true ∨ b.isInfinite = true
  · have haz : a.isZero = false := by
      rcases hinf with h | h
      · exact isZero_of_isInfinite h
      · exact eq_false_of_ne_true fun hz => hinv (Or.inr ⟨hz, h⟩)
    have hbz : b.isZero = false := by
      rcases hinf with h | h
      · exact eq_false_of_ne_true fun hz => hinv (Or.inl ⟨h, hz⟩)
      · exact isZero_of_isInfinite h
    rw [mul_of_isInfinite hinf ⟨ha, haz⟩ ⟨hb, hbz⟩]
    exact .infinite hinf ⟨ha, haz⟩ ⟨hb, hbz⟩ (isInfinite_infinity f _) (negative_ofCode ..)
  · obtain ⟨hai, hbi⟩ := not_or.mp hinf
    have haf := (isInfinite_or_isFinite ha).resolve_left hai
    have hbf := (isInfinite_or_isFinite hb).resolve_left hbi
    exact .finite haf hbf (roundsTo_mul haf hbf) (by rw [mul_of_isFinite haf hbf, negative_ofCode])

/-- **The rules determine the product.** -/
theorem IsProduct.eqUpToNaN {a b r : Binary f} (h : IsProduct a b r) : r.EqUpToNaN (a.mul b) := by
  cases h with
  | nan h hr => exact Or.inr ⟨hr, by rw [mul_of_isNaN h, isNaN_nan]⟩
  | invalid h hr => exact Or.inr ⟨hr, by rw [mul_of_invalid h, isNaN_nan]⟩
  | infinite h ha hb hr hs =>
    rw [mul_of_isInfinite h ha hb]
    exact Or.inl (eq_of_isInfinite hr (isInfinite_infinity f _)
      (hs.trans (negative_ofCode ..).symm))
  | finite ha hb h hs =>
    exact Or.inl (h.unique (roundsTo_mul ha hb) fun _ => by
      rw [hs, mul_of_isFinite ha hb, negative_ofCode])

theorem mul_comm (a b : Binary f) : a.mul b = b.mul a := by
  simp only [mul, Bool.or_comm, Nat.mul_comm, bne_comm]

/-! ### Operands that leave the other one alone -/

/-- Negative zero, and no other zero, can be added without a trace. -/
theorem negativeZero_add {x : Binary f} (hx : x.isNaN = false) : (negativeZero f).add x = x := by
  have hcode : (negativeZero f).code = 0 := code_ofCode_of_lt (Nat.zero_le _)
  have hfin : (negativeZero f).isFinite = true := by
    simpa [isFinite, hcode] using f.infinityCode_pos
  rcases isInfinite_or_isFinite hx with hi | hxf
  · exact add_of_isInfinite_right (Or.inl hfin) hi
  · have hsum : (negativeZero f).quanta + x.quanta = x.quanta := by simp [quanta, hcode]
    have hround : roundQuotient f x.quanta.natAbs 1 = x.code := by
      refine roundQuotient_of_eq_magnitude Nat.one_pos (code_lt_of_isFinite hxf).le ?_
      rw [quanta]
      split_ifs <;> simp
    have hneg : (negativeZero f).negative = true := negative_ofCode ..
    rw [add_of_isFinite hfin hxf, addFinite, hsum, hround]
    refine eq_of_negative_of_code ?_ (code_ofCode_of_lt (code_lt_of_isFinite hxf).le)
    rw [negative_ofCode, hneg, Bool.true_and]
    by_cases hz : x.quanta = 0
    · rw [if_pos hz]
    · rw [if_neg hz, negative_eq_of_quanta hz]

/-- A factor of magnitude 1 passes on its sign, and nothing else. -/
theorem mul_of_code_eq_oneCode {c x : Binary f} (hc : c.code = f.oneCode) (hx : x.isNaN = false) :
    c.mul x = ofCode f (c.negative != x.negative) x.code := by
  have hfin : c.isFinite = true := by simpa [isFinite, hc] using f.oneCode_lt_infinityCode
  have hzero : c.isZero = false := by simpa [isZero, hc] using f.oneCode_pos.ne'
  rcases isInfinite_or_isFinite hx with hi | hxf
  · have hcode : x.code = f.infinityCode := by simpa [isInfinite] using hi
    rw [mul_of_isInfinite (Or.inr hi) ⟨isNaN_of_isFinite hfin, hzero⟩ ⟨hx, isZero_of_isInfinite hi⟩,
      hcode]
    rfl
  · have hround : roundQuotient f (magnitude f c.code * magnitude f x.code) f.scale = x.code := by
      refine roundQuotient_of_eq_magnitude f.scale_pos (code_lt_of_isFinite hxf).le ?_
      rw [hc, magnitude_oneCode, Nat.mul_comm]
    rw [mul_of_isFinite hfin hxf, hround]

/-- Multiplication by 1 changes nothing, and by -1 the sign. -/
theorem one_mul {x : Binary f} (hx : x.isNaN = false) : (one f).mul x = x := by
  rw [mul_of_code_eq_oneCode (code_one f) hx, show (one f).negative = false from negative_ofCode ..,
    Bool.false_bne, ofCode_negative_code]

theorem neg_one_mul {x : Binary f} (hx : x.isNaN = false) : (one f).neg.mul x = x.neg := by
  rw [mul_of_code_eq_oneCode ((code_neg _).trans (code_one f)) hx, negative_neg,
    show (one f).negative = false from negative_ofCode .., Bool.not_false, Bool.true_bne, neg]

end Binary

end ConstFold
