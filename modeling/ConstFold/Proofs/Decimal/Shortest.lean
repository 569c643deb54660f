import ConstFold.Proofs.Decimal.Basic

/-!
# Shortest decimals

Every decimal that the search for the shortest one returns has been tried and found to round to the
code, except the last resort, which is the number of the code itself and is not rounded at all.
What is tried on a grid are the neighbours of that number, and of two that round back the nearer one
is taken.

The search goes from one digit up and takes the first grid on which one of the two neighbours of the
number rounds back to the code. Whatever other decimal of as few digits rounds back, one of the
neighbours is between it and the number (`Decimal.le_lower_or_upper_le`), and the decimals that
round to the code have no gaps; so that neighbour rounds back as well, and is no farther from the
number. Hence a grid without a hit has no decimal for the code at all, and on the first grid with a
hit none is nearer than the hit.

## Main definitions

* `Decimal.IsShortest` — a decimal of the fewest digits for a code, and a nearest one of these

## Main results

* `neighbour?_eq_some`, `neighbour?_eq_none` — what is taken on a grid
* `round_shortest` — the shortest decimal of a code rounds to the code
* `isReduced_shortest` — it has no trailing zeros
* `round_ne_of_neighbour?_eq_none` — a grid without a hit
* `IsShortest.of_neighbour?` — the first grid with a hit
* `exists_isShortest_shortest` — what the search finds
-/

namespace ConstFold

namespace Decimal

variable {f : Format} {code : ℕ}

/-- The quanta of a code are counted without loss. -/
theorem toRat_exact (f : Format) (code : ℕ) :
    (exact f code).toRat = magnitude f code / f.scale := by
  have hten : (10 : ℚ) ^ f.quantumExponent = 5 ^ f.quantumExponent * 2 ^ f.quantumExponent := by
    rw [← mul_pow]
    norm_num
  rw [toRat, exact, zpow_neg, zpow_natCast, hten, Format.scale]
  push_cast
  field_simp

theorem round_of_toRat_eq (hcode : code ≤ f.infinityCode) {d : Decimal}
    (h : d.toRat = magnitude f code / f.scale) : d.round f = code := by
  have hscale : (f.scale : ℚ) ≠ 0 := by exact_mod_cast f.scale_pos.ne'
  have hden : (d.denominator : ℚ) ≠ 0 := by exact_mod_cast d.denominator_pos.ne'
  rw [toRat_eq_div, div_eq_div_iff hden hscale] at h
  exact roundQuotient_of_eq_magnitude d.denominator_pos hcode (by exact_mod_cast h)

theorem round_exact (h : code ≤ f.infinityCode) : (exact f code).round f = code :=
  round_of_toRat_eq h (toRat_exact f code)

/-! ### One grid -/

theorem readsBack_iff {d : Decimal} : readsBack f code d = true ↔ d.round f = code :=
  beq_iff_eq

theorem readsBack_eq_false_iff {d : Decimal} : readsBack f code d = false ↔ d.round f ≠ code :=
  beq_eq_false_iff_ne

/-- A neighbour is taken only if it rounds back; if both do, the nearer one is. -/
theorem neighbour?_eq_some {drop : ℕ} {d : Decimal} (h : neighbour? f code drop = some d) :
    d.round f = code ∧
      ((d = (exact f code).lower drop ∧
          (((exact f code).upper drop).round f = code →
            |((exact f code).lower drop).toRat - (exact f code).toRat|
              ≤ |((exact f code).upper drop).toRat - (exact f code).toRat|)) ∨
        (d = (exact f code).upper drop ∧
          (((exact f code).lower drop).round f = code →
            |((exact f code).upper drop).toRat - (exact f code).toRat|
              ≤ |((exact f code).lower drop).toRat - (exact f code).toRat|))) := by
  simp only [neighbour?] at h
  split at h
  case h_1 hlower hupper =>
    split_ifs at h with hnear <;> obtain rfl := Option.some.inj h
    · exact ⟨readsBack_iff.mp hlower, Or.inl ⟨rfl, fun _ =>
        (abs_lower_sub_le_abs_upper_sub_iff _ _).mpr hnear.le⟩⟩
    · exact ⟨readsBack_iff.mp hupper, Or.inr ⟨rfl, fun _ =>
        (abs_upper_sub_le_abs_lower_sub_iff _ _).mpr (not_lt.mp hnear)⟩⟩
  case h_2 hlower hupper =>
    obtain rfl := Option.some.inj h
    exact ⟨readsBack_iff.mp hlower, Or.inl ⟨rfl, fun hround =>
      absurd hround (readsBack_eq_false_iff.mp hupper)⟩⟩
  case h_3 hlower hupper =>
    obtain rfl := Option.some.inj h
    exact ⟨readsBack_iff.mp hupper, Or.inr ⟨rfl, fun hround =>
      absurd hround (readsBack_eq_false_iff.mp hlower)⟩⟩
  case h_4 => exact absurd h (by simp)

/-- None is taken only if neither rounds back. -/
theorem neighbour?_eq_none {drop : ℕ} (h : neighbour? f code drop = none) :
    ((exact f code).lower drop).round f ≠ code ∧ ((exact f code).upper drop).round f ≠ code := by
  simp only [neighbour?] at h
  split at h
  case h_1 => split_ifs at h
  case h_2 => cases h
  case h_3 => cases h
  case h_4 hlower hupper =>
    exact ⟨readsBack_eq_false_iff.mp hlower, readsBack_eq_false_iff.mp hupper⟩

/-! ### The search -/

theorem round_search (hcode : code ≤ f.infinityCode) (drop : ℕ) :
    (search f code drop).round f = code := by
  induction drop with
  | zero => exact round_exact hcode
  | succ drop ih =>
    rw [search]
    split
    case h_1 d hd => exact (neighbour?_eq_some hd).1
    case h_2 => exact ih

/-- Zero does not round to any other code. -/
theorem coefficient_pos_of_round {d : Decimal} (h : d.round f = code)
    (hcode : magnitude f code ≠ 0) : 0 < d.coefficient := by
  refine Nat.pos_of_ne_zero fun hzero => hcode ?_
  rw [← h, round, numerator, hzero, Nat.zero_mul, Nat.zero_mul,
    roundQuotient_zero f (denominator_pos d), magnitude_zero]

/-- **The shortest decimal of a code rounds to the code.** -/
theorem round_shortest (hcode : code ≤ f.infinityCode) : (shortest f code).round f = code := by
  rw [shortest]
  split_ifs with hzero
  · refine round_of_toRat_eq hcode ?_
    simp [toRat, hzero]
  · rw [round_congr (toRat_normalize _), round_search hcode]

/-- It has no digit to spare. -/
theorem isReduced_shortest (hcode : code ≤ f.infinityCode) : (shortest f code).IsReduced := by
  have hround := round_shortest hcode
  rw [shortest] at hround ⊢
  split_ifs at hround ⊢ with hzero
  · exact Or.inr rfl
  · exact isReduced_normalize (coefficient_pos_of_round hround hzero)

end Decimal

namespace Decimal

/-! ### The fewest digits -/

variable {f : Format} {code drop : ℕ} {d e : Decimal}

/-- `d` rounds to the code and has at most `n` digits. No decimal of fewer digits rounds to the
code, and none of as many is nearer to its number. -/
structure IsShortest (f : Format) (code n : ℕ) (d : Decimal) : Prop where
  hasDigits : HasDigits n d.toRat
  round : d.round f = code
  shortest : ∀ m < n, ∀ e : Decimal, e.coefficient < 10 ^ m → e.round f ≠ code
  closest : ∀ e : Decimal, e.coefficient < 10 ^ n → e.round f = code →
    |d.toRat - (exact f code).toRat| ≤ |e.toRat - (exact f code).toRat|

/-- All of this is said about the number of the decimal. -/
theorem IsShortest.congr {n : ℕ} (h : IsShortest f code n d) (he : e.toRat = d.toRat) :
    IsShortest f code n e where
  hasDigits := he ▸ h.hasDigits
  round := (round_congr he f).trans h.round
  shortest := h.shortest
  closest := he ▸ h.closest

/-! ### The first grid with a hit -/

section

variable (hcode : code ≤ f.infinityCode) (hround : e.round f = code)
include hcode hround

/-- The lower neighbour rounds back if anything below it does. -/
theorem round_lower (h : e.toRat ≤ ((exact f code).lower drop).toRat) :
    ((exact f code).lower drop).round f = code := by
  have hexact := round_exact hcode
  rw [round_eq_of_between h (lower_le _ _) (hround.trans hexact.symm), hexact]

/-- The upper neighbour rounds back if anything above it does. -/
theorem round_upper (h : ((exact f code).upper drop).toRat ≤ e.toRat) :
    ((exact f code).upper drop).round f = code := by
  have hexact := round_exact hcode
  rw [round_eq_of_between (le_upper _ _) h (hexact.trans hround.symm), hround]

end

section

variable (hcode : code ≤ f.infinityCode) (hpos : 0 < (exact f code).coefficient)
  (hdrop : drop < (exact f code).digitCount)
include hcode hpos hdrop

/-- **A grid without a hit has no decimal for the code.** -/
theorem round_ne_of_neighbour?_eq_none (h : neighbour? f code drop = none)
    (he : e.coefficient < 10 ^ ((exact f code).digitCount - drop)) : e.round f ≠ code := by
  intro hround
  obtain ⟨hlower, hupper⟩ := neighbour?_eq_none h
  rcases le_lower_or_upper_le hdrop hpos he with hle | hle
  · exact hlower (round_lower hcode hround hle)
  · exact hupper (round_upper hcode hround hle)

/-- **The first hit is shortest, and none of its length is nearer.** A decimal of its length that
rounds to the code is at a neighbour or beyond it. As rounding is monotone that neighbour rounds to
the code too, and the hit is the nearest of those that do. -/
theorem IsShortest.of_neighbour? (h : neighbour? f code drop = some d)
    (hfewer : ∀ m < (exact f code).digitCount - drop, ∀ e : Decimal, e.coefficient < 10 ^ m →
      e.round f ≠ code) : IsShortest f code ((exact f code).digitCount - drop) d where
  hasDigits := by
    rcases (neighbour?_eq_some h).2 with ⟨rfl, -⟩ | ⟨rfl, -⟩
    · exact hasDigits_lower hdrop
    · exact hasDigits_upper hdrop
  round := (neighbour?_eq_some h).1
  shortest := hfewer
  closest e he hround := by
    have hside := le_lower_or_upper_le hdrop hpos he
    rcases (neighbour?_eq_some h).2 with ⟨rfl, hnear⟩ | ⟨rfl, hnear⟩
    · rcases hside with hle | hle
      · exact abs_lower_sub_le hle
      · exact (hnear (round_upper hcode hround hle)).trans (abs_upper_sub_le hle)
    · rcases hside with hle | hle
      · exact (hnear (round_lower hcode hround hle)).trans (abs_lower_sub_le hle)
      · exact abs_upper_sub_le hle

/-! ### All grids -/

/-- The search from a grid on, if the coarser ones have no decimal for the code. -/
theorem exists_isShortest_search
    (hfewer : ∀ m < (exact f code).digitCount - drop, ∀ e : Decimal, e.coefficient < 10 ^ m →
      e.round f ≠ code) : ∃ n, IsShortest f code n (search f code drop) := by
  induction drop with
  | zero =>
    refine ⟨_, hasDigits_toRat (coefficient_lt _), round_exact hcode, hfewer, fun e _ _ => ?_⟩
    rw [search, sub_self, abs_zero]
    exact abs_nonneg _
  | succ drop ih =>
    rw [search]
    split
    case h_1 d hd => exact ⟨_, IsShortest.of_neighbour? hcode hpos hdrop hd hfewer⟩
    case h_2 hnone =>
      refine ih (by omega) fun m hm e he => ?_
      have hgrid : 10 ^ m ≤ 10 ^ ((exact f code).digitCount - (drop + 1)) :=
        Nat.pow_le_pow_right (by decide) (by omega)
      exact round_ne_of_neighbour?_eq_none hcode hpos hdrop hnone (he.trans_le hgrid)

end

/-- **The shortest decimal of a code is a shortest one**, and none as short is nearer. -/
theorem exists_isShortest_shortest (hcode : code ≤ f.infinityCode) :
    ∃ n, IsShortest f code n (shortest f code) := by
  rw [shortest]
  split_ifs with hzero
  · have hnum : (exact f code).toRat = 0 := by simp [toRat_exact, hzero]
    have hnum' : (⟨0, 0⟩ : Decimal).toRat = 0 := by simp [toRat]
    refine ⟨0, hasDigits_toRat (by decide), ?_, fun m hm => absurd hm m.not_lt_zero,
      fun e _ _ => ?_⟩
    · rw [round_congr (hnum'.trans hnum.symm), round_exact hcode]
    · rw [hnum, hnum', sub_self, abs_zero]
      exact abs_nonneg _
  · have hpos : 0 < (exact f code).coefficient :=
      Nat.mul_pos (Nat.pos_of_ne_zero hzero) (Nat.pow_pos (by decide))
    have hcount : 0 < (exact f code).digitCount := by
      rw [digitCount, Radix.digitCount]
      split_ifs <;> omega
    have hfewer : ∀ m < (exact f code).digitCount - ((exact f code).digitCount - 1),
        ∀ e : Decimal, e.coefficient < 10 ^ m → e.round f ≠ code := by
      intro m hm e he hround
      -- without any digit there is only zero
      obtain rfl : m = 0 := by omega
      have := coefficient_pos_of_round hround hzero
      omega
    obtain ⟨n, hn⟩ := exists_isShortest_search hcode hpos (by omega) hfewer
    exact ⟨n, hn.congr (toRat_normalize _)⟩

end Decimal

end ConstFold
