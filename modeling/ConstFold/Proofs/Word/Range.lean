import Mathlib.Data.Int.Notation
import Mathlib.Data.Nat.Notation
import Mathlib.Order.Basic

/-!
# The numbers of words

A word of a given width has two numbers, a signed and an unsigned one, and each of the two ranges of
numbers is taken up by words without a gap. So an integer is in a range iff it is the number of a
word, and the word is its low bits. A word that is extended keeps its number, which is why an
integer survives in a narrower word iff it is in the range of that word.

## Main results

* `ofInt_signed_eq_some_iff`, `ofInt_unsigned_eq_some_iff` — the word of an integer in range
* `zeroExtend_eq_iff`, `signExtend_eq_iff` — extension keeps the number
* `signExtend_setWidth_eq_iff` — the words that their low bits give back
-/

namespace ConstFold

namespace Word

variable {w m : ℕ} {n : ℤ}

/-! ### Ranges -/

theorem between_toInt (v : BitVec w) :
    (BitVec.intMin w).toInt ≤ v.toInt ∧ v.toInt ≤ (BitVec.intMax w).toInt :=
  ⟨BitVec.toInt_intMin_le v, BitVec.toInt_intMax ▸ BitVec.toInt_le⟩

theorem between_toNat (v : BitVec w) :
    0 ≤ (v.toNat : ℤ) ∧ (v.toNat : ℤ) ≤ (BitVec.allOnes w).toNat := by
  have := v.isLt
  rw [BitVec.toNat_allOnes]
  omega

theorem toInt_ofInt_of_between (hmin : (BitVec.intMin w).toInt ≤ n)
    (hmax : n ≤ (BitVec.intMax w).toInt) : (BitVec.ofInt w n).toInt = n := by
  rcases Nat.eq_zero_or_pos w with rfl | hw
  · -- there is one word without bits
    obtain rfl : n = 0 := Int.le_antisymm hmax hmin
    rfl
  · rw [BitVec.toInt_intMin_of_pos hw] at hmin
    rw [BitVec.toInt_intMax] at hmax
    exact BitVec.toInt_ofInt_eq_self hw hmin (by omega)

theorem toNat_ofInt_of_between (hmin : 0 ≤ n) (hmax : n ≤ (BitVec.allOnes w).toNat) :
    ((BitVec.ofInt w n).toNat : ℤ) = n := by
  obtain ⟨m, rfl⟩ := Int.eq_ofNat_of_zero_le hmin
  have hlt : m < 2 ^ w := by
    have := Nat.two_pow_pos w
    rw [BitVec.toNat_allOnes] at hmax
    omega
  rw [BitVec.ofInt_natCast, BitVec.toNat_ofNat, Nat.mod_eq_of_lt hlt]

/-- **An integer in the signed range gives the word with that number**, and no other integer gives
it. -/
theorem ofInt_signed_eq_some_iff {v : BitVec w} :
    (if (BitVec.intMin w).toInt ≤ n ∧ n ≤ (BitVec.intMax w).toInt then some (BitVec.ofInt w n)
      else none) = some v ↔ v.toInt = n := by
  constructor
  · intro h
    split_ifs at h with hn
    rw [← Option.some.inj h, toInt_ofInt_of_between hn.1 hn.2]
  · rintro rfl
    rw [if_pos (between_toInt v), BitVec.ofInt_toInt]

/-- **An integer in the unsigned range gives the word with that number**, and no other integer gives
it. -/
theorem ofInt_unsigned_eq_some_iff {v : BitVec w} :
    (if 0 ≤ n ∧ n ≤ (BitVec.allOnes w).toNat then some (BitVec.ofInt w n) else none) = some v ↔
      (v.toNat : ℤ) = n := by
  constructor
  · intro h
    split_ifs at h with hn
    rw [← Option.some.inj h, toNat_ofInt_of_between hn.1 hn.2]
  · rintro rfl
    rw [if_pos (between_toNat v), BitVec.ofInt_natCast, BitVec.ofNat_toNat, BitVec.setWidth_eq]

/-! ### Extension -/

/-- A word with zeros in front of it, at least one of them, has its unsigned number. -/
theorem toInt_zeroExtend (h : w < m) (k : BitVec w) : (k.zeroExtend m).toInt = k.toNat := by
  have hle : k.toNat < 2 ^ w := k.isLt
  have hpow : 2 ^ (w + 1) ≤ 2 ^ m := Nat.pow_le_pow_right Nat.two_pos h
  have hnat : (k.zeroExtend m).toNat = k.toNat := by
    rw [BitVec.zeroExtend_eq_setWidth, BitVec.toNat_setWidth, Nat.mod_eq_of_lt (by omega)]
  rw [BitVec.toInt_eq_toNat_of_lt (by omega), hnat]

theorem zeroExtend_eq_iff (h : w < m) {k : BitVec w} {v : BitVec m} :
    k.zeroExtend m = v ↔ (k.toNat : ℤ) = v.toInt := by
  rw [← BitVec.toInt_inj, toInt_zeroExtend h]

theorem signExtend_eq_iff (h : w ≤ m) {k : BitVec w} {v : BitVec m} :
    k.signExtend m = v ↔ k.toInt = v.toInt := by
  rw [← BitVec.toInt_inj, BitVec.toInt_signExtend_of_le h]

/-- **A word is the sign extension of its low bits** iff its number is in their range. -/
theorem signExtend_setWidth_eq_iff (h : w ≤ m) {v : BitVec m} :
    (v.setWidth w).signExtend m = v ↔
      (BitVec.intMin w).toInt ≤ v.toInt ∧ v.toInt ≤ (BitVec.intMax w).toInt := by
  rw [signExtend_eq_iff h]
  constructor
  · intro hv
    rw [← hv]
    exact between_toInt _
  · rintro ⟨hmin, hmax⟩
    -- the low bits are those of the number
    have hlow : v.setWidth w = BitVec.ofInt w v.toInt := (v.signExtend_eq_setWidth_of_le h).symm
    rw [hlow, toInt_ofInt_of_between hmin hmax]

end Word

end ConstFold
