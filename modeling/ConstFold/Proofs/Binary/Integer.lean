import ConstFold.Proofs.Binary.Monotone

/-!
# Integers among the data

Rounding an integer gives an integer: either all of its digits fit, or the places that are cut off
are whole. Truncating a datum gives an integer that the format holds, because truncation only drops
digits. So the first conversion between words and data may lose something, but what it arrives at
is common to both sides up to the ends of the words.

At the ends two things can happen. A word near the greatest one can be rounded past it, and comes
back as the greatest word. That one lies between the word and what the word was rounded to, so it
is rounded alike (`ofInt_eq_of_between`). And a datum past the greatest word is saturated, where it
is the roundings of the two ends that have to come back (`Format.ReturnsEnds`).

## Main definitions

* `Format.ReturnsEnds` — the ends of the words survive a stop at a format

## Main results

* `ofInt_truncate_ofInt` — a rounded integer is an integer
* `holds_truncate` — a truncated datum is an integer of the format
* `ofWord_toWord_ofWord`, `toWord_ofWord_toWord` — there and back loses nothing more
-/

namespace ConstFold

variable {f : Format}

/-! ### Rounded integers -/

theorem roundDiv_mul_of_dvd {num den : ℕ} (h : den ∣ num) : roundDiv num den * den = num := by
  have hmod := Nat.mod_eq_zero_of_dvd h
  rcases Nat.eq_zero_or_pos den with rfl | hden
  · simp [Nat.eq_zero_of_zero_dvd h]
  · simp only [roundDiv, hmod, Nat.mul_zero, if_pos hden]
    exact Nat.div_mul_cancel h

theorem scale_dvd_magnitude_roundUnbounded (f : Format) (n : ℕ) :
    f.scale ∣ magnitude f (roundUnbounded f (n * f.scale) 1) := by
  rw [magnitude_roundUnbounded, leading, Nat.one_mul]
  generalize excess f (n * f.scale) 1 = places
  rcases Nat.le_total places f.quantumExponent with hle | hle
  · have hdvd : 2 ^ places ∣ n * f.scale := Nat.dvd_mul_left_of_dvd (Nat.pow_dvd_pow 2 hle) n
    rw [roundDiv_mul_of_dvd hdvd]
    exact Nat.dvd_mul_left ..
  · -- whole places are cut off
    exact Nat.dvd_mul_left_of_dvd (Nat.pow_dvd_pow 2 hle) _

namespace Binary

theorem code_ofInt (f : Format) (n : ℤ) :
    (ofInt f n).code = roundQuotient f (n.natAbs * f.scale) 1 :=
  code_ofCode_of_lt (roundQuotient_le ..)

theorem negative_ofInt (f : Format) (n : ℤ) : (ofInt f n).negative = decide (n < 0) :=
  negative_ofCode ..

theorem scale_dvd_magnitude_ofInt {n : ℤ} (h : (ofInt f n).isFinite = true) :
    f.scale ∣ magnitude f (ofInt f n).code := by
  have hlt := code_lt_of_isFinite h
  have hcode : (ofInt f n).code = roundUnbounded f (n.natAbs * f.scale) 1 := by
    rw [code_ofInt, roundQuotient_eq_min] at hlt ⊢
    omega
  rw [hcode]
  exact scale_dvd_magnitude_roundUnbounded f n.natAbs

theorem truncate_mul_scale {b : Binary f} (h : f.scale ∣ magnitude f b.code) :
    b.truncate * f.scale = b.quanta := by
  refine Int.tdiv_mul_cancel ?_
  rw [← Int.natAbs_dvd_natAbs, natAbs_quanta, Int.natAbs_natCast]
  exact h

/-- The rank of a datum is that of its own number, rounded. -/
theorem roundRank_quanta {b : Binary f} (h : b.isNaN = false) :
    roundRank f b.quanta 1 = b.rank := by
  rw [← rank_ofCode_roundQuotient (s := b.negative) Nat.one_pos negative_eq_of_quanta,
    natAbs_quanta, roundQuotient_of_eq_magnitude Nat.one_pos (code_le_of_isNaN h)
      (Nat.mul_one _).symm, ofCode_negative_code]

/-! ### Ranks tell rounded integers apart -/

theorem rank_ofInt_zero (f : Format) : (ofInt f 0).rank = 0 := by
  simp [rank_ofInt, roundRank, roundQuotient_zero]

theorem rank_ofInt_neg_one (f : Format) : (ofInt f (-1)).rank = -f.oneCode := by
  have hone : roundQuotient f f.scale 1 = f.oneCode :=
    roundQuotient_of_eq_magnitude Nat.one_pos f.oneCode_lt_infinityCode.le
      (by rw [magnitude_oneCode, Nat.mul_one])
  have hneg : (-1 : ℤ) * f.scale < 0 := (mul_scale_neg_iff f (-1)).mpr (by decide)
  rw [rank_ofInt, roundRank, if_pos hneg, Int.natAbs_mul, Int.natAbs_natCast]
  simp [hone]

theorem rank_ofInt_neg_iff (f : Format) (n : ℤ) : (ofInt f n).rank < 0 ↔ n < 0 := by
  constructor
  · intro h
    by_contra hn
    have := rank_ofInt_mono f (not_lt.mp hn)
    rw [rank_ofInt_zero] at this
    omega
  · intro h
    have := rank_ofInt_mono f (show n ≤ -1 by omega)
    rw [rank_ofInt_neg_one] at this
    have := f.oneCode_pos
    omega

theorem ofInt_eq_of_rank {m n : ℤ} (h : (ofInt f m).rank = (ofInt f n).rank) :
    ofInt f m = ofInt f n := by
  refine eq_of_negative_of_code ?_ ?_
  · rw [negative_ofInt, negative_ofInt, decide_eq_decide, ← rank_ofInt_neg_iff f m,
      ← rank_ofInt_neg_iff f n, h]
  · rw [← natAbs_rank, ← natAbs_rank, h]

/-- **A rounded integer is an integer**: the one it truncates to, which is exact. -/
theorem ofInt_truncate_ofInt {n : ℤ} (h : (ofInt f n).isFinite = true) :
    ofInt f (ofInt f n).truncate = ofInt f n := by
  apply ofInt_eq_of_rank
  rw [rank_ofInt, truncate_mul_scale (scale_dvd_magnitude_ofInt h),
    roundRank_quanta (isNaN_of_isFinite h)]

/-- Integers between two that are rounded alike are rounded alike. -/
theorem ofInt_eq_of_between {k m n : ℤ} (hlo : min k n ≤ m) (hhi : m ≤ max k n)
    (h : ofInt f k = ofInt f n) : ofInt f m = ofInt f n := by
  have hmin := rank_ofInt_mono f hlo
  have hmax := rank_ofInt_mono f hhi
  apply ofInt_eq_of_rank
  rcases le_total k n with hkn | hkn
  · rw [min_eq_left hkn, h] at hmin
    rw [max_eq_right hkn] at hmax
    exact le_antisymm hmax hmin
  · rw [min_eq_right hkn] at hmin
    rw [max_eq_left hkn, h] at hmax
    exact le_antisymm hmax hmin

/-- Past an integer that overflows all do. -/
theorem ofInt_eq_of_isInfinite {m n : ℤ} (h : (ofInt f n).isInfinite = true)
    (hm : if n < 0 then m ≤ n else n ≤ m) : ofInt f m = ofInt f n := by
  have hn : ofInt f n = infinity f (decide (n < 0)) :=
    eq_of_isInfinite h (isInfinite_infinity ..) (by rw [negative_ofInt, negative_infinity])
  have hmem := rank_mem (isNaN_ofInt f m)
  rw [hn]
  apply eq_infinity_of_rank
  by_cases hneg : n < 0
  · rw [if_pos hneg] at hm
    have := rank_ofInt_mono f hm
    rw [hn] at this
    simp only [hneg, decide_true, rank_infinity, if_true] at this ⊢
    exact le_antisymm this hmem.1
  · rw [if_neg hneg] at hm
    have := rank_ofInt_mono f hm
    rw [hn] at this
    simp only [hneg, decide_false, rank_infinity, Bool.false_eq_true, if_false] at this ⊢
    exact le_antisymm hmem.2 this

/-! ### Words to data and back -/

/-- **From a word to data, only the first rounding can lose anything.** The word that comes
back is between the first one and what that was rounded to, and integers between two that are
rounded alike are rounded alike. -/
theorem ofWord_toWord_ofWord (f : Format) {w : ℕ} (v : BitVec w) :
    ofWord f ((ofWord f v).toWord w) = ofWord f v := by
  have hmin := BitVec.toInt_intMin_le v
  have hmax : v.toInt ≤ (BitVec.intMax w).toInt := BitVec.toInt_intMax ▸ BitVec.toInt_le
  simp only [ofWord]
  rcases isInfinite_or_isFinite (isNaN_ofInt f v.toInt) with hi | hfin
  · apply ofInt_eq_of_isInfinite hi
    rw [toWord_of_isInfinite hi, negative_ofInt]
    by_cases hneg : v.toInt < 0
    · simpa only [hneg, decide_true, if_true] using hmin
    · simpa only [hneg, decide_false, Bool.false_eq_true, if_false] using hmax
  · -- the saturated integer is between the word and what it was rounded to
    rw [toWord_of_isFinite hfin]
    refine ofInt_eq_of_between ?_ ?_ (ofInt_truncate_ofInt hfin) <;> rw [toInt_saturate] <;> omega

/-! ### Truncated data -/

theorem natAbs_truncate (b : Binary f) : b.truncate.natAbs = magnitude f b.code / f.scale := by
  rw [truncate, Int.natAbs_tdiv, natAbs_quanta, Int.natAbs_natCast]
  rfl

theorem holds_zero (f : Format) : f.Holds 0 :=
  ⟨0, f.infinityCode_pos, by simp⟩

/-- **A truncated datum is an integer of the format.** -/
theorem holds_truncate {b : Binary f} (h : b.isFinite = true) : f.Holds b.truncate := by
  have hlt := magnitude_strictMono f (code_lt_of_isFinite h)
  obtain ⟨k, j, hk, hmag⟩ := exists_eq_mul_two_pow f b.code
  obtain ⟨code, hcode⟩ : ∃ code, magnitude f code = magnitude f b.code / f.scale * f.scale := by
    rcases Nat.le_total f.quantumExponent j with hle | hle
    · -- the datum is an integer itself
      have hdvd : f.scale ∣ magnitude f b.code :=
        hmag ▸ Nat.dvd_mul_left_of_dvd (Nat.pow_dvd_pow 2 hle) k
      exact ⟨b.code, (Nat.div_mul_cancel hdvd).symm⟩
    · have hle' : magnitude f b.code / f.scale ≤ k := by
        refine Nat.div_le_of_le_mul ?_
        rw [hmag, Nat.mul_comm]
        exact Nat.mul_le_mul_right k (Nat.pow_le_pow_right Nat.two_pos hle)
      exact exists_magnitude_eq (hle'.trans_lt hk) f.quantumExponent
  refine ⟨code, (magnitude_strictMono f).lt_iff_lt.mp ?_, by rw [hcode, natAbs_truncate]⟩
  rw [hcode]
  exact (Nat.div_mul_le_self ..).trans_lt hlt

/-- A datum becomes an end of the words or an integer of the format. -/
theorem toWord_eq_or_holds (b : Binary f) (w : ℕ) :
    b.toWord w = BitVec.intMin w ∨ b.toWord w = BitVec.intMax w ∨ f.Holds (b.toWord w).toInt := by
  cases hb : b.isNaN with
  | true =>
    rw [toWord_of_isNaN hb, BitVec.toInt_zero]
    exact Or.inr (Or.inr (holds_zero f))
  | false =>
    rcases isInfinite_or_isFinite hb with hi | hfin
    · rw [toWord_of_isInfinite hi]
      cases b.negative with
      | true => exact Or.inl rfl
      | false => exact Or.inr (Or.inl rfl)
    · have hends := BitVec.toInt_intMin_le (BitVec.intMax w)
      rw [toWord_of_isFinite hfin, ← BitVec.toInt_inj, ← BitVec.toInt_inj, toInt_saturate]
      rcases le_total b.truncate (BitVec.intMin w).toInt with hlo | hlo
      · left
        omega
      · rcases le_total (BitVec.intMax w).toInt b.truncate with hhi | hhi
        · right; left
          omega
        · right; right
          rw [min_eq_right hhi, max_eq_right hlo]
          exact holds_truncate hfin

end Binary

/-! ### Data to words and back -/

/-- The ends of the words of a width come back from a format. The lower end is a power of two and so
exact; the upper one may be rounded up, past the words, and then comes back only because the
conversion to words saturates. -/
structure Format.ReturnsEnds (f : Format) (w : ℕ) : Prop where
  intMin : (Binary.ofWord f (BitVec.intMin w)).toWord w = BitVec.intMin w
  intMax : (Binary.ofWord f (BitVec.intMax w)).toWord w = BitVec.intMax w

/-- **From a datum to words, only the first truncation can lose anything.** -/
theorem Binary.toWord_ofWord_toWord {w : ℕ} (hends : f.ReturnsEnds w) (b : Binary f) :
    (ofWord f (b.toWord w)).toWord w = b.toWord w := by
  rcases toWord_eq_or_holds b w with h | h | h
  · rw [h, hends.intMin]
  · rw [h, hends.intMax]
  · exact toWord_ofWord h

end ConstFold
