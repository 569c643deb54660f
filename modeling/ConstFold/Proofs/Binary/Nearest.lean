import ConstFold.Binary.Round
import ConstFold.Proofs.Binary.Magnitude
import Mathlib.Algebra.Order.Field.Rat
import Mathlib.Data.Nat.Cast.Order.Field
import Mathlib.Tactic.FieldSimp
import Mathlib.Tactic.Linarith

/-!
# Rounding finds the nearest code

`IsNearest f q code` says what rounding is for, without saying how: no magnitude is nearer to `q`
quanta than the one of `code`, and if another one is as near then `code` is even. There is at most
one such code, and it grows with `q`. So whatever is proved about `roundQuotient` below needs only
the *rational* that its two arguments denote.

## Overflow

`IsNearest` ranges over all codes, also those past `infinityCode`, as if the exponent had no upper
bound. `roundQuotient` is that code cut off at `infinityCode` (`roundQuotient_eq_min`).

## Main results

* `IsNearest.unique`, `IsNearest.mono`
* `IsNearest.succ_le_iff`, `IsNearest.le_iff` — an even code claims the midpoints on both sides
* `isNearest_roundUnbounded` — what `roundQuotient` computes before the cut is the nearest code
* `roundQuotient_congr`, `roundQuotient_of_eq_magnitude` — rounding depends on the quotient alone,
  and leaves alone what the format holds
-/

namespace ConstFold

variable {f : Format}

theorem magnitude_cast_lt {a b : ℕ} (h : a < b) : (magnitude f a : ℚ) < magnitude f b :=
  Nat.cast_lt.mpr (magnitude_strictMono f h)

theorem magnitude_cast_le {a b : ℕ} (h : a ≤ b) : (magnitude f a : ℚ) ≤ magnitude f b :=
  Nat.cast_le.mpr ((magnitude_strictMono f).monotone h)

/-- The lesser of two numbers is the nearer one to `q` up to their midpoint. -/
theorem abs_left_le_iff {a b q : ℚ} (h : a < b) : |a - q| ≤ |b - q| ↔ 2 * q ≤ a + b := by
  rcases abs_cases (a - q) with ⟨ha, _⟩ | ⟨ha, _⟩ <;>
    rcases abs_cases (b - q) with ⟨hb, _⟩ | ⟨hb, _⟩ <;>
    rw [ha, hb] <;> constructor <;> intro _ <;> linarith

/-- From their midpoint on it is the greater one. -/
theorem abs_right_le_iff {a b q : ℚ} (h : a < b) : |b - q| ≤ |a - q| ↔ a + b ≤ 2 * q := by
  rcases abs_cases (a - q) with ⟨ha, _⟩ | ⟨ha, _⟩ <;>
    rcases abs_cases (b - q) with ⟨hb, _⟩ | ⟨hb, _⟩ <;>
    rw [ha, hb] <;> constructor <;> intro _ <;> linarith

/-- The magnitude of `code` is nearest to `q` quanta among all magnitudes, and `code` is even if
another magnitude is as near. -/
structure IsNearest (f : Format) (q : ℚ) (code : ℕ) : Prop where
  le : ∀ c, |(magnitude f code : ℚ) - q| ≤ |(magnitude f c : ℚ) - q|
  even : ∀ c, c ≠ code → |(magnitude f c : ℚ) - q| = |(magnitude f code : ℚ) - q| → code % 2 = 0

namespace IsNearest

/-- Two even codes are no neighbours, and a code between them would be nearer. -/
theorem unique {q : ℚ} {a b : ℕ} (h : IsNearest f q a) (h' : IsNearest f q b) : a = b := by
  by_contra hne
  wlog hlt : a < b generalizing a b
  · exact this h' h (Ne.symm hne) (by omega)
  have heq : |(magnitude f b : ℚ) - q| = |(magnitude f a : ℚ) - q| := le_antisymm (h'.le a) (h.le b)
  have ha := h.even b (Ne.symm hne) heq
  have hb := h'.even a hne heq.symm
  have hmid := (abs_right_le_iff (magnitude_cast_lt hlt)).mp heq.le
  have hsucc := (abs_left_le_iff (magnitude_cast_lt (Nat.lt_succ_self a))).mp (h.le (a + 1))
  have hright := magnitude_cast_lt (f := f) (show a + 1 < b by omega)
  linarith

theorem mono {q q' : ℚ} {a b : ℕ} (h : IsNearest f q a) (h' : IsNearest f q' b) (hq : q ≤ q') :
    a ≤ b := by
  by_contra hlt
  have hmag := magnitude_cast_lt (f := f) (Nat.lt_of_not_le hlt)
  -- both numbers are the midpoint of the two magnitudes
  have hle := (abs_right_le_iff hmag).mp (h.le b)
  have hge := (abs_left_le_iff hmag).mp (h'.le a)
  obtain rfl : q = q' := by linarith
  exact hlt (h.unique h').le

/-- A magnitude is nearest to itself. -/
theorem of_magnitude (f : Format) (code : ℕ) : IsNearest f (magnitude f code) code := by
  refine ⟨fun c => by simp, fun c hc h => ?_⟩
  rw [sub_self, abs_zero, abs_eq_zero, sub_eq_zero] at h
  exact absurd ((magnitude_strictMono f).injective (by exact_mod_cast h)) hc

/-- What makes a code nearest: it is within half a unit, the magnitudes above it are a unit away,
and so are those below it, or else the number is not below it at all. -/
theorem of_spacing {q u : ℚ} {code : ℕ}
    (habove : ∀ c, code < c → (magnitude f code : ℚ) + u ≤ magnitude f c)
    (hbelow : (∀ c < code, (magnitude f c : ℚ) + u ≤ magnitude f code) ∨ (magnitude f code : ℚ) ≤ q)
    (hdist : |2 * ((magnitude f code : ℚ) - q)| ≤ u)
    (heven : |2 * ((magnitude f code : ℚ) - q)| = u → code % 2 = 0) : IsNearest f q code := by
  obtain ⟨hlo, hhi⟩ := abs_le.mp hdist
  refine ⟨fun c => ?_, fun c hc heq => heven (le_antisymm hdist ?_)⟩
  · rcases Nat.lt_trichotomy c code with hlt | rfl | hlt
    · have hmag := magnitude_cast_lt (f := f) hlt
      rw [abs_right_le_iff hmag]
      rcases hbelow with hbelow | hq
      · linarith [hbelow c hlt]
      · linarith
    · exact le_rfl
    · rw [abs_left_le_iff (magnitude_cast_lt hlt)]
      linarith [habove c hlt]
  · -- a code as near as `code` has the midpoint between the two at `q`
    rcases Nat.lt_or_gt_of_ne hc with hlt | hlt
    · have hmag := magnitude_cast_lt (f := f) hlt
      have hmid := (abs_left_le_iff hmag).mp heq.le
      rcases hbelow with hbelow | hq
      · exact le_trans (by linarith [hbelow c hlt]) (le_abs_self _)
      · exact absurd hmid (by linarith)
    · have hmid := (abs_right_le_iff (magnitude_cast_lt hlt)).mp heq.le
      exact le_trans (by linarith [habove c hlt]) (neg_le_abs _)

/-! ### Midpoints -/

/-- Up to a code lie the numbers up to the midpoint above it. -/
theorem le_midpoint {q : ℚ} {code c : ℕ} (h : IsNearest f q code) (hle : code ≤ c) :
    2 * q ≤ (magnitude f c : ℚ) + magnitude f (c + 1) := by
  have hstep := magnitude_cast_lt (f := f) (Nat.lt_succ_self c)
  have hmag : (magnitude f code : ℚ) ≤ magnitude f c := magnitude_cast_le hle
  have hmid := (abs_left_le_iff (hmag.trans_lt hstep)).mp (h.le (c + 1))
  linarith

/-- Past a code lie the numbers from that midpoint on. -/
theorem midpoint_le {q : ℚ} {code c : ℕ} (h : IsNearest f q code) (hle : c + 1 ≤ code) :
    (magnitude f c : ℚ) + magnitude f (c + 1) ≤ 2 * q := by
  have hstep := magnitude_cast_lt (f := f) (Nat.lt_succ_self c)
  have hmag : (magnitude f (c + 1) : ℚ) ≤ magnitude f code := magnitude_cast_le hle
  have hmid := (abs_right_le_iff (hstep.trans_le hmag)).mp (h.le c)
  linarith

/-- The midpoint itself goes to the even one of the two neighbours. -/
theorem eq_of_midpoint {q : ℚ} {code c : ℕ} (h : IsNearest f q code)
    (hq : 2 * q = (magnitude f c : ℚ) + magnitude f (c + 1)) : code = c + c % 2 := by
  have hstep := magnitude_cast_lt (f := f) (Nat.lt_succ_self c)
  have htie : |(magnitude f c : ℚ) - q| = |(magnitude f (c + 1) : ℚ) - q| :=
    le_antisymm ((abs_left_le_iff hstep).mpr hq.le) ((abs_right_le_iff hstep).mpr hq.ge)
  have hge : c ≤ code := by
    by_contra hlt
    obtain ⟨d, rfl⟩ : ∃ d, c = d + 1 := Nat.exists_eq_add_of_le' (by omega)
    have hmid := h.le_midpoint (c := d) (by omega)
    have hmag := magnitude_cast_lt (f := f) (show d < d + 1 + 1 by omega)
    linarith
  have hle : code ≤ c + 1 := by
    by_contra hlt
    have hmid := h.midpoint_le (c := c + 1) (by omega)
    have hmag := magnitude_cast_lt (f := f) (show c < c + 1 + 1 by omega)
    linarith
  rcases Nat.lt_or_eq_of_le hle with hlt | rfl
  · obtain rfl : code = c := by omega
    have := h.even (code + 1) (by omega) htie.symm
    omega
  · have := h.even c (by omega) htie
    omega

/-- An even code claims the midpoint below it, so the codes from it on begin there. -/
theorem succ_le_iff {q : ℚ} {code c : ℕ} (h : IsNearest f q code) (hc : (c + 1) % 2 = 0) :
    c + 1 ≤ code ↔ (magnitude f c : ℚ) + magnitude f (c + 1) ≤ 2 * q := by
  refine ⟨h.midpoint_le, fun hq => ?_⟩
  by_contra hlt
  have := h.eq_of_midpoint (le_antisymm (h.le_midpoint (by omega)) hq)
  omega

/-- It claims the midpoint above it as well, so the codes up to it end there. -/
theorem le_iff {q : ℚ} {code c : ℕ} (h : IsNearest f q code) (hc : c % 2 = 0) :
    code ≤ c ↔ 2 * q ≤ (magnitude f c : ℚ) + magnitude f (c + 1) := by
  refine ⟨h.le_midpoint, fun hq => ?_⟩
  by_contra hlt
  have := h.eq_of_midpoint (le_antisymm hq (h.midpoint_le (by omega)))
  omega

end IsNearest

/-! ### Rounding a quotient to a natural -/

theorem le_roundDiv (num den : ℕ) : num / den ≤ roundDiv num den := by
  simp only [roundDiv]
  split_ifs <;> omega

theorem roundDiv_le (num den : ℕ) : roundDiv num den ≤ num / den + 1 := by
  simp only [roundDiv]
  split_ifs <;> omega

/-- `roundDiv` misses the quotient by a half at most, and by a half only if it is even. -/
theorem abs_roundDiv_sub (num : ℕ) {den : ℕ} (hden : 0 < den) :
    |2 * ((roundDiv num den : ℤ) * den - num)| ≤ den ∧
      (|2 * ((roundDiv num den : ℤ) * den - num)| = den → roundDiv num den % 2 = 0) := by
  have hnum : (num : ℤ) = (num / den : ℕ) * den + (num % den : ℕ) := by
    exact_mod_cast (Nat.div_add_mod' num den).symm
  have hlt : ((num % den : ℕ) : ℤ) < den := by exact_mod_cast Nat.mod_lt num hden
  simp only [roundDiv]
  split_ifs with h₁ h₂
  · have hdist : ((num / den : ℕ) : ℤ) * den - num = -(num % den : ℕ) := by linarith
    rw [hdist, abs_of_nonpos (by omega)]
    exact ⟨by omega, fun h => by omega⟩
  · have hdist : ((num / den + 1 : ℕ) : ℤ) * den - num = den - (num % den : ℕ) := by
      push_cast at hnum ⊢
      linarith
    rw [hdist, abs_of_nonneg (by omega)]
    exact ⟨by omega, fun h => by omega⟩
  · -- a tie: the remainder is half of the denominator
    refine ⟨?_, fun _ => by omega⟩
    rcases Nat.mod_two_eq_zero_or_one (num / den) with hpar | hpar
    · have hdist : ((num / den + num / den % 2 : ℕ) : ℤ) * den - num = -(num % den : ℕ) := by
        rw [hpar, Nat.add_zero]
        linarith
      rw [hdist, abs_of_nonpos (by omega)]
      omega
    · have hdist : ((num / den + num / den % 2 : ℕ) : ℤ) * den - num = den - (num % den : ℕ) := by
        rw [hpar]
        push_cast at hnum ⊢
        linarith
      rw [hdist, abs_of_nonneg (by omega)]
      omega

/-! ### Rounding a quotient to a code -/

/-- The places by which a quotient exceeds the digits of a format, which is also the piece of the
codes that it falls into. -/
def excess (f : Format) (num den : ℕ) : ℕ :=
  (num / den).log2 - f.fraction

/-- The leading digits of a quotient, rounded. -/
def leading (f : Format) (num den : ℕ) : ℕ :=
  roundDiv num (den * 2 ^ excess f num den)

/-- The code that `roundQuotient` computes before it checks for overflow. -/
def roundUnbounded (f : Format) (num den : ℕ) : ℕ :=
  excess f num den * 2 ^ f.fraction + leading f num den

theorem roundQuotient_eq_min (f : Format) (num den : ℕ) :
    roundQuotient f num den = min (roundUnbounded f num den) f.infinityCode :=
  rfl

/-- A quotient with digits to spare is at least the lower end of its piece. -/
theorem two_pow_le_div {num den : ℕ} (h : 0 < excess f num den) :
    2 ^ f.fraction * 2 ^ excess f num den ≤ num / den := by
  have hexp : (num / den).log2 = f.fraction + excess f num den := by rw [excess] at h ⊢; omega
  have hne : num / den ≠ 0 := by
    intro h0
    simp only [h0, Nat.log2_zero] at hexp
    omega
  rw [← Nat.pow_add, ← hexp]
  exact Nat.log2_self_le hne

theorem inPiece_leading (f : Format) (num den : ℕ) :
    InPiece f (excess f num den) (leading f num den) := by
  have hquot : num / (den * 2 ^ excess f num den) = num / den / 2 ^ excess f num den :=
    (Nat.div_div_eq_div_mul ..).symm
  have hge := le_roundDiv num (den * 2 ^ excess f num den)
  have hle := roundDiv_le num (den * 2 ^ excess f num den)
  rw [hquot] at hge hle
  have hlog : num / den < 2 ^ ((num / den).log2 + 1) := Nat.lt_log2_self
  have hup : num / den / 2 ^ excess f num den < 2 ^ (f.fraction + 1) := by
    refine Nat.div_lt_of_lt_mul (Nat.lt_of_lt_of_le hlog ?_)
    rw [← Nat.pow_add]
    exact Nat.pow_le_pow_right Nat.two_pos (by rw [excess]; omega)
  refine ⟨hle.trans hup, ?_⟩
  rcases Nat.eq_zero_or_pos (excess f num den) with hz | hpos
  · exact Or.inl hz
  · refine Or.inr (le_trans ?_ hge)
    rw [Nat.le_div_iff_mul_le (Nat.two_pow_pos _)]
    exact two_pow_le_div hpos

theorem magnitude_roundUnbounded (f : Format) (num den : ℕ) :
    magnitude f (roundUnbounded f num den) = leading f num den * 2 ^ excess f num den :=
  magnitude_piece (inPiece_leading f num den)

/-- **Rounding is to nearest, and to even between two.** The leading digits count the
distance of the magnitudes in the piece of the quotient, and miss the quotient by half of that at
most. Below the piece magnitudes are closer to each other, but the quotient has reached its lower
end. -/
theorem isNearest_roundUnbounded (f : Format) (num : ℕ) {den : ℕ} (hden : 0 < den) :
    IsNearest f (num / den) (roundUnbounded f num den) := by
  have hden' : (0 : ℚ) < den := by exact_mod_cast hden
  have hpiece := inPiece_leading f num den
  have hmag := magnitude_roundUnbounded f num den
  obtain ⟨hdist, heven⟩ := abs_roundDiv_sub num
    (Nat.mul_pos hden (Nat.two_pow_pos (excess f num den)))
  -- the distance of the rounded digits, moved back to their places
  have hscale : |2 * ((magnitude f (roundUnbounded f num den) : ℚ) - num / den)| * den
      = (|2 * ((leading f num den : ℤ) * (den * 2 ^ excess f num den : ℕ) - num)| : ℤ) := by
    rw [hmag, ← abs_of_pos hden', ← abs_mul, abs_of_pos hden']
    push_cast
    congr 1
    field_simp
  have hunit : ((2 ^ excess f num den : ℕ) : ℚ) * den = (den * 2 ^ excess f num den : ℕ) := by
    rw [mul_comm, Nat.cast_mul]
  refine IsNearest.of_spacing (u := (2 ^ excess f num den : ℕ)) (fun c hc => ?_) ?_ ?_ fun h => ?_
  · exact_mod_cast magnitude_add_le hpiece hc
  · rcases Nat.eq_zero_or_pos (excess f num den) with hz | hpos
    · refine Or.inl fun c hc => ?_
      rw [hz]
      exact_mod_cast magnitude_strictMono f hc
    · rcases Nat.lt_or_eq_of_le (hpiece.2.resolve_left hpos.ne') with hlt | heq
      · exact Or.inl fun c hc => by exact_mod_cast magnitude_add_le_of_lt hpiece hlt hc
      · -- the lower end of the piece, which the quotient has reached
        right
        rw [hmag, ← heq]
        exact le_trans (Nat.cast_le.mpr (two_pow_le_div hpos)) Nat.cast_div_le
  · rw [← mul_le_mul_iff_left₀ hden', hscale, hunit]
    exact_mod_cast hdist
  · have hpar : leading f num den % 2 = 0 := by
      refine heven ?_
      rw [h, hunit] at hscale
      exact_mod_cast hscale.symm
    -- a piece begins at an even code
    obtain ⟨k, hk⟩ := f.exists_two_pow_fraction
    rw [roundUnbounded, hk, Nat.mul_left_comm, Nat.mul_add_mod]
    exact hpar

section

variable {num den : ℕ} (hden : 0 < den)
include hden

theorem roundQuotient_eq_of_isNearest {code : ℕ} (h : IsNearest f (num / den) code) :
    roundQuotient f num den = min code f.infinityCode := by
  rw [roundQuotient_eq_min, (isNearest_roundUnbounded f num hden).unique h]

/-- Rounding depends on the quotient alone. -/
theorem roundQuotient_congr {num' den' : ℕ} (hden' : 0 < den') (h : num * den' = num' * den) :
    roundQuotient f num den = roundQuotient f num' den' := by
  have hq : (num : ℚ) / den = num' / den' := by
    rw [div_eq_div_iff (by exact_mod_cast hden.ne') (by exact_mod_cast hden'.ne')]
    exact_mod_cast h
  rw [roundQuotient_eq_min f num' den']
  exact roundQuotient_eq_of_isNearest hden (hq ▸ isNearest_roundUnbounded f num' hden')

/-- **Rounding leaves alone what the format holds.** A magnitude is nearest to itself, and nearest
codes are unique. -/
theorem roundQuotient_of_eq_magnitude {code : ℕ} (hcode : code ≤ f.infinityCode)
    (h : num = magnitude f code * den) : roundQuotient f num den = code := by
  have hq : (num : ℚ) / den = magnitude f code := by
    rw [h, Nat.cast_mul, mul_div_cancel_right₀ _ (by exact_mod_cast hden.ne')]
  have hnearest : IsNearest f (num / den) code := hq ▸ IsNearest.of_magnitude f code
  rw [roundQuotient_eq_of_isNearest hden hnearest, Nat.min_eq_left hcode]

end

end ConstFold
