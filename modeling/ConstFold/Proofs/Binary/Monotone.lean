import ConstFold.Proofs.Binary.Convert
import ConstFold.Proofs.Binary.Exact
import ConstFold.Proofs.Word.Range

/-!
# Conversions respect the order

Of two numbers the greater one is never rounded to the lesser datum, and never truncated to the
lesser integer. Data are ordered by rank, so this is said about ranks: a conversion to a format
takes a signed number of quanta to the rank `roundRank`, which is monotone because the nearest code
is. Nothing below depends on how much a conversion loses; overflow and saturation are the ends of
the destination, and those are the greatest and the least of it.

Where a conversion loses nothing, the exact number is kept, and with it the outcome of every
comparison.

## Main definitions

* `roundRank` — the rank of a signed number of quanta, rounded

## Main results

* `rank_ofInt_mono`, `rank_convert_mono`, `toInt_toWord_mono` — conversions are monotone
* `toRat_ofInt`, `toExtended_convert` — exact conversions keep the number
-/

namespace ConstFold

variable {f g : Format}

/-! ### Rounding -/

theorem roundQuotient_zero (f : Format) {den : ℕ} (hden : 0 < den) : roundQuotient f 0 den = 0 :=
  roundQuotient_of_eq_magnitude hden (Nat.zero_le _) (by simp)

section

variable {den den' : ℕ} (hden : 0 < den) (hden' : 0 < den')
include hden hden'

/-- The code of a greater quotient is no less. -/
theorem roundQuotient_mono {num num' : ℕ} (h : num * den' ≤ num' * den) :
    roundQuotient f num den ≤ roundQuotient f num' den' := by
  have hq : (num : ℚ) / den ≤ num' / den' := by
    rw [div_le_div_iff₀ (by exact_mod_cast hden) (by exact_mod_cast hden')]
    exact_mod_cast h
  have hcode := (isNearest_roundUnbounded f num hden).mono
    (isNearest_roundUnbounded f num' hden') hq
  rw [roundQuotient_eq_min, roundQuotient_eq_min]
  exact min_le_min_right _ hcode

/-- The rank of a signed number of quanta, rounded to the nearest datum. -/
def roundRank (f : Format) (num : ℤ) (den : ℕ) : ℤ :=
  if num < 0 then -roundQuotient f num.natAbs den else roundQuotient f num.natAbs den

theorem roundRank_mono {num num' : ℤ} (h : num * den' ≤ num' * den) :
    roundRank f num den ≤ roundRank f num' den' := by
  have hden₀ : (0 : ℤ) < den := by exact_mod_cast hden
  have hden₀' : (0 : ℤ) < den' := by exact_mod_cast hden'
  rw [roundRank, roundRank]
  split_ifs with hn hn' hn'
  · -- below zero the greater number has the lesser magnitude
    have hle : num'.natAbs * den ≤ num.natAbs * den' := by
      zify
      rw [abs_of_neg hn, abs_of_neg hn']
      linarith
    have := roundQuotient_mono (f := f) hden' hden hle
    omega
  · omega
  · have hneg := mul_neg_of_neg_of_pos hn' hden₀
    have hnonneg := mul_nonneg (not_lt.mp hn) hden₀'.le
    omega
  · have hle : num.natAbs * den' ≤ num'.natAbs * den := by
      zify
      rwa [abs_of_nonneg (not_lt.mp hn), abs_of_nonneg (not_lt.mp hn')]
    exact_mod_cast roundQuotient_mono hden hden' hle

end

namespace Binary

/-! ### Ranks of rounded data -/

theorem natAbs_quanta (b : Binary f) : b.quanta.natAbs = magnitude f b.code := by
  rw [quanta]
  split_ifs <;> simp

theorem natAbs_rank (b : Binary f) : b.rank.natAbs = b.code := by
  rw [rank]
  split_ifs <;> simp

theorem rank_ofCode {s : Bool} {c : ℕ} (h : c ≤ f.infinityCode) :
    (ofCode f s c).rank = if s then -(c : ℤ) else c := by
  rw [rank, negative_ofCode, code_ofCode_of_lt h]

/-- The sign of a zero does not show in a rank. -/
theorem rank_ofCode_roundQuotient {s : Bool} {num : ℤ} {den : ℕ} (hden : 0 < den)
    (hs : num ≠ 0 → s = decide (num < 0)) :
    (ofCode f s (roundQuotient f num.natAbs den)).rank = roundRank f num den := by
  rw [rank_ofCode (roundQuotient_le ..), roundRank]
  rcases eq_or_ne num 0 with rfl | hne
  · simp [roundQuotient_zero f hden]
  · simp [hs hne]

theorem mul_scale_neg_iff (f : Format) (n : ℤ) : n * f.scale < 0 ↔ n < 0 := by
  have hscale : (0 : ℤ) < f.scale := by exact_mod_cast f.scale_pos
  exact lt_iff_lt_of_le_iff_le (mul_nonneg_iff_of_pos_right hscale)

theorem rank_ofInt (f : Format) (n : ℤ) : (ofInt f n).rank = roundRank f (n * f.scale) 1 := by
  rw [← rank_ofCode_roundQuotient (s := decide (n < 0)) Nat.one_pos (by simp [mul_scale_neg_iff]),
    ofInt, Int.natAbs_mul, Int.natAbs_natCast]

theorem rank_convert {b : Binary f} (h : b.isFinite = true) (g : Format) :
    (b.convert g).rank = roundRank g (b.quanta * g.scale) f.scale := by
  rw [← rank_ofCode_roundQuotient (s := b.negative) f.scale_pos, convert_of_isFinite h,
    Int.natAbs_mul, Int.natAbs_natCast, natAbs_quanta]
  intro hne
  rw [negative_eq_of_quanta (left_ne_zero_of_mul hne), decide_eq_decide, mul_scale_neg_iff]

/-! ### The ends of a format -/

theorem rank_infinity (f : Format) (s : Bool) :
    (infinity f s).rank = if s then -(f.infinityCode : ℤ) else f.infinityCode :=
  rank_ofCode le_rfl

/-- Ranks tell infinities apart from all other data. -/
theorem eq_infinity_of_rank {b : Binary f} {s : Bool} (h : b.rank = (infinity f s).rank) :
    b = infinity f s := by
  have hpos := f.infinityCode_pos
  have hcode := natAbs_rank b
  rw [rank_infinity] at h
  refine eq_of_isInfinite ?_ (isInfinite_infinity f s) ?_
  · have : b.code = f.infinityCode := by
      rw [← hcode, h]
      split_ifs <;> omega
    simp [isInfinite, this]
  · rw [negative_infinity]
    rw [rank] at h
    cases hs : b.negative <;> cases s <;> simp [hs] at h ⊢ <;> omega

section

variable {a b : Binary f} (ha : a.isNaN = false) (hb : b.isNaN = false) (h : a.rank ≤ b.rank)
include ha hb h

/-- Of two data in order the lesser is the negative infinity, the greater is the positive one, or
both are finite. -/
theorem isFinite_or_eq_infinity :
    (a.isFinite = true ∧ b.isFinite = true) ∨ a = infinity f true ∨ b = infinity f false := by
  obtain ⟨halo, hahi⟩ := rank_mem ha
  obtain ⟨hblo, hbhi⟩ := rank_mem hb
  have hacode := natAbs_rank a
  have hbcode := natAbs_rank b
  by_cases hbot : a.rank = (infinity f true).rank
  · exact Or.inr (Or.inl (eq_infinity_of_rank hbot))
  by_cases htop : b.rank = (infinity f false).rank
  · exact Or.inr (Or.inr (eq_infinity_of_rank htop))
  rw [rank_infinity, if_pos rfl] at hbot
  rw [rank_infinity, if_neg Bool.false_ne_true] at htop
  left
  rw [isFinite, isFinite, decide_eq_true_eq, decide_eq_true_eq]
  constructor <;> omega

end

theorem quanta_le_of_rank_le {a b : Binary f} (h : a.rank ≤ b.rank) : a.quanta ≤ b.quanta := by
  rw [quanta_eq_ofRank, quanta_eq_ofRank]
  exact (quantaOfRank_strictMono f).monotone h

/-! ### Monotone conversions -/

theorem rank_ofInt_mono (f : Format) {m n : ℤ} (h : m ≤ n) :
    (ofInt f m).rank ≤ (ofInt f n).rank := by
  rw [rank_ofInt, rank_ofInt]
  refine roundRank_mono Nat.one_pos Nat.one_pos ?_
  exact mul_le_mul_of_nonneg_right (mul_le_mul_of_nonneg_right h (Int.natCast_nonneg _))
    (Int.natCast_nonneg _)

/-- A word read back is its number, cut off at the ends of the words. -/
theorem toInt_saturate (w : ℕ) (n : ℤ) :
    (saturate w n).toInt = max (BitVec.intMin w).toInt (min (BitVec.intMax w).toInt n) := by
  have hmin := BitVec.toInt_intMin_le (BitVec.intMax w)
  exact Word.toInt_ofInt_of_between (le_max_left _ _) (max_le hmin (min_le_left _ _))

section

variable {a b : Binary f} (ha : a.isNaN = false) (hb : b.isNaN = false) (h : a.rank ≤ b.rank)
include ha hb h

/-- **Rounding to a format is monotone.** Ranks carry the sign, so data of both signs are treated
at once. -/
theorem rank_convert_mono (g : Format) : (a.convert g).rank ≤ (b.convert g).rank := by
  rcases isFinite_or_eq_infinity ha hb h with ⟨hfa, hfb⟩ | rfl | rfl
  · rw [rank_convert hfa, rank_convert hfb]
    refine roundRank_mono f.scale_pos f.scale_pos ?_
    exact mul_le_mul_of_nonneg_right (mul_le_mul_of_nonneg_right (quanta_le_of_rank_le h)
      (Int.natCast_nonneg _)) (Int.natCast_nonneg _)
  · rw [convert_of_isInfinite (isInfinite_infinity ..), negative_infinity, rank_infinity]
    exact (rank_mem (isNaN_convert hb g)).1
  · rw [convert_of_isInfinite (isInfinite_infinity ..), negative_infinity, rank_infinity]
    exact (rank_mem (isNaN_convert ha g)).2

/-- **Rounding toward zero to a word is monotone.** -/
theorem toInt_toWord_mono (w : ℕ) : (a.toWord w).toInt ≤ (b.toWord w).toInt := by
  rcases isFinite_or_eq_infinity ha hb h with ⟨hfa, hfb⟩ | rfl | rfl
  · have htrunc : a.truncate ≤ b.truncate :=
      Int.tdiv_le_tdiv (by exact_mod_cast f.scale_pos) (quanta_le_of_rank_le h)
    rw [toWord_of_isFinite hfa, toWord_of_isFinite hfb, toInt_saturate, toInt_saturate]
    exact max_le_max_left _ (min_le_min_left _ htrunc)
  · rw [toWord_of_isInfinite (isInfinite_infinity ..), negative_infinity]
    exact BitVec.toInt_intMin_le _
  · rw [toWord_of_isInfinite (isInfinite_infinity f false), negative_infinity]
    exact BitVec.toInt_intMax ▸ BitVec.toInt_le

end

/-! ### Exact conversions -/

/-- The number of a datum of a quotient is that quotient. -/
theorem IsQuotient.toRat_eq {b : Binary f} {s : Bool} {num den : ℕ} (hden : 0 < den)
    (h : b.IsQuotient s num den) : b.toRat = (if s then -1 else 1) * (num / den) := by
  rw [toRat_eq_sign_mul, sign, h.negative]
  congr 1
  rw [div_eq_div_iff (scale_cast_pos f).ne' (by exact_mod_cast hden.ne')]
  exact_mod_cast h.magnitude_mul

theorem toRat_ofInt {n : ℤ} (h : f.Holds n) : (ofInt f n).toRat = n := by
  rw [(isQuotient_ofInt h).toRat_eq Nat.one_pos, Nat.cast_one, div_one, Nat.cast_natAbs]
  rcases lt_or_ge n 0 with hn | hn
  · simp [hn, abs_of_neg]
  · simp [hn.not_gt, abs_of_nonneg hn]

/-- A larger format keeps the number of a datum. -/
theorem toExtended_convert (hfg : f.Within g) {b : Binary f} (hb : b.isNaN = false) :
    (b.convert g).toExtended = b.toExtended := by
  rcases isInfinite_or_isFinite hb with hi | hfin
  · rw [convert_of_isInfinite hi, toExtended, isInfinite_infinity, negative_infinity, toExtended,
      hi]
    rfl
  · have hq := isQuotient_convert hfg hfin
    rw [toExtended_of_isFinite hq.finite, toExtended_of_isFinite hfin, hq.toRat_eq f.scale_pos,
      (isQuotient_self hfin).toRat_eq f.scale_pos]

end Binary

end ConstFold
