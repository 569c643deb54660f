import ConstFold.Proofs.Word.Range
import ConstFold.Word.BitCount
import Mathlib.Data.Nat.Notation
import Mathlib.Order.Basic

/-!
# The bit counts of a word

There are three scans over the bits of a word, one from above, one from below, and one over all of
them. What they find is arithmetic. The highest set bit is the logarithm, the lowest one is the
power of two that divides the word, and a word with one set bit is a power of two. So the scans have
to agree: the highest and the lowest bit lie apart unless there is just one.

## Main definitions

* `Word.CountsAgree` — what the counts of a word say, and how they are related

## Main results

* `leadingZeros_add_log2` — the scan from above
* `leastSigBit?_eq_some_iff`, `leastSigBit?_eq_none_iff` — the scan from below
* `isPowerOfTwo_iff`, `isPowerOfTwo_iff_eq_log2` — the scan over all bits
* `exists_countsAgree` — the counts of every word
* `isOneByteSigned_iff`, `isOneByteSigned_iff_signExtend` — the words that fit one signed byte
-/

namespace ConstFold

namespace Word

variable {n : BitVec 32} {j k : ℕ}

/-! ### The highest bit -/

/-- The scan from above counts down to the first set bit that it meets. -/
theorem leadingZerosBelow_of_highest {count : ℕ} (hk : k < count) (hbit : n.getLsbD k = true)
    (habove : ∀ i, k < i → i < count → n.getLsbD i = false) :
    leadingZerosBelow n count + k + 1 = count := by
  induction count with
  | zero => exact absurd hk (Nat.not_lt_zero k)
  | succ count ih =>
    rw [leadingZerosBelow]
    rcases Nat.lt_succ_iff_lt_or_eq.mp hk with hlt | rfl
    · -- the bit on top is clear, and the scan goes on below it
      have hrest := ih hlt fun i hi hcount => habove i hi (Nat.lt_succ_of_lt hcount)
      rw [habove count hlt (Nat.lt_succ_self count), if_neg Bool.false_ne_true]
      omega
    · rw [hbit, if_pos rfl, Nat.zero_add]

/-- **The leading zeros end at the logarithm.** -/
theorem leadingZeros_add_log2 (hn : n.toNat ≠ 0) : leadingZeros n + n.toNat.log2 = 31 := by
  have hlt : n.toNat.log2 < 32 := (Nat.log2_lt hn).mpr n.isLt
  have habove (i : ℕ) (hi : n.toNat.log2 < i) : n.getLsbD i = false := by
    have hpow : 2 ^ (n.toNat.log2 + 1) ≤ 2 ^ i := Nat.pow_le_pow_right Nat.two_pos hi
    exact Nat.testBit_lt_two_pow (Nat.lt_of_lt_of_le Nat.lt_log2_self hpow)
  have h := leadingZerosBelow_of_highest hlt (Nat.testBit_log2 hn) fun i hi _ => habove i hi
  rw [leadingZeros]
  omega

/-! ### The lowest bit -/

theorem two_pow_dvd_iff {x : ℕ} : 2 ^ k ∣ x ↔ ∀ i < k, x.testBit i = false := by
  rw [Nat.dvd_iff_mod_eq_zero, Nat.eq_iff_testBit_eq]
  simp

/-- A multiple of a power of two that is below the next power is that power itself. -/
theorem eq_two_pow_of_dvd {x : ℕ} (hx : x ≠ 0) (hdvd : 2 ^ k ∣ x) (hlt : x < 2 ^ (k + 1)) :
    x = 2 ^ k := by
  obtain ⟨m, rfl⟩ := hdvd
  rw [Nat.pow_succ] at hlt
  have hm : m < 2 := Nat.lt_of_mul_lt_mul_left hlt
  have hpos : m ≠ 0 := by
    rintro rfl
    exact hx (Nat.mul_zero _)
  obtain rfl : m = 1 := by omega
  exact Nat.mul_one _

/-- **The scan from below finds the greatest power of two that divides the word.** A power divides
the word exactly if all bits below it are clear. -/
theorem leastSigBit?_eq_some_iff :
    leastSigBit? n = some k ↔ 2 ^ k ∣ n.toNat ∧ ¬ 2 ^ (k + 1) ∣ n.toNat := by
  rw [leastSigBit?, List.find?_range_eq_some, two_pow_dvd_iff, two_pow_dvd_iff]
  simp only [BitVec.testBit_toNat, List.mem_range, Bool.not_eq_true']
  constructor
  · rintro ⟨hbit, -, hbelow⟩
    refine ⟨hbelow, fun hall => ?_⟩
    exact Bool.false_ne_true ((hall k (Nat.lt_succ_self k)).symm.trans hbit)
  · rintro ⟨hbelow, hnot⟩
    have hbit : n.getLsbD k = true := by
      by_contra hbit
      refine hnot fun i hi => ?_
      rcases Nat.lt_succ_iff_lt_or_eq.mp hi with hlt | rfl
      · exact hbelow i hlt
      · exact Bool.eq_false_iff.mpr hbit
    exact ⟨hbit, BitVec.lt_of_getLsbD hbit, hbelow⟩

theorem leastSigBit?_eq_none_iff : leastSigBit? n = none ↔ n.toNat = 0 := by
  rw [leastSigBit?, List.find?_range_eq_none]
  constructor
  · intro h
    have hzero : n = 0#32 := BitVec.eq_of_getLsbD_eq fun i hi => by simpa using h i hi
    rw [hzero]
    rfl
  · intro h i _
    rw [← BitVec.testBit_toNat, h, Nat.zero_testBit]
    rfl

theorem leastSigBit?_eq_some_of_toNat (h : n.toNat = 2 ^ j) : leastSigBit? n = some j := by
  rw [leastSigBit?_eq_some_iff, h]
  refine ⟨Nat.dvd_refl _, fun hdvd => ?_⟩
  exact Nat.not_succ_le_self j ((Nat.pow_dvd_pow_iff_le_right Nat.one_lt_two).mp hdvd)

/-! ### Single bits -/

theorem countP_range_eq_one_iff {p : ℕ → Bool} {m : ℕ} :
    (List.range m).countP p = 1 ↔ ∃ j < m, ∀ i < m, (p i = true ↔ i = j) := by
  constructor
  · intro h
    rw [List.countP_eq_length_filter, List.length_eq_one_iff] at h
    obtain ⟨j, hj⟩ := h
    have hmem (i : ℕ) : i < m ∧ p i = true ↔ i = j := by
      rw [← List.mem_range, ← List.mem_filter, hj, List.mem_singleton]
    refine ⟨j, ((hmem j).mpr rfl).1, fun i hi => ?_⟩
    rw [← hmem i, and_iff_right hi]
  · rintro ⟨j, hj, h⟩
    have hcount : (List.range m).countP p = (List.range m).count j := by
      refine List.countP_congr fun i hi => ?_
      rw [h i (List.mem_range.mp hi), beq_iff_eq]
    rw [hcount, List.count_range, if_pos hj]

/-- A word is a power of two if it has just the bit of it. -/
theorem toNat_eq_two_pow_iff (hj : j < 32) :
    n.toNat = 2 ^ j ↔ ∀ i < 32, (n.getLsbD i = true ↔ i = j) := by
  constructor
  · intro h i _
    rw [← BitVec.testBit_toNat, h, Nat.testBit_two_pow, decide_eq_true_eq, eq_comm]
  · intro h
    refine Nat.eq_of_testBit_eq fun i => ?_
    rw [Nat.testBit_two_pow, BitVec.testBit_toNat]
    rcases Nat.lt_or_ge i 32 with hi | hi
    · rw [Bool.eq_iff_iff, h i hi, decide_eq_true_eq, eq_comm]
    · rw [BitVec.getLsbD_of_ge n i hi, decide_eq_false (by omega)]

/-- **A word with one set bit is a power of two.** -/
theorem isPowerOfTwo_iff : isPowerOfTwo n = true ↔ ∃ j : ℕ, j < 32 ∧ n.toNat = 2 ^ j := by
  rw [isPowerOfTwo, beq_iff_eq, countP_range_eq_one_iff]
  exact exists_congr fun j => and_congr_right fun hj => (toNat_eq_two_pow_iff hj).symm

/-! ### The scans together -/

section

variable (hk : leastSigBit? n = some k)
include hk

theorem toNat_ne_zero_of_leastSigBit? : n.toNat ≠ 0 := by
  intro h
  exact nomatch (leastSigBit?_eq_none_iff.mpr h).symm.trans hk

/-- The lowest set bit is not above the highest one. -/
theorem leastSigBit?_le_log2 : k ≤ n.toNat.log2 := by
  have hn := toNat_ne_zero_of_leastSigBit? hk
  have hdvd := (leastSigBit?_eq_some_iff.mp hk).1
  exact (Nat.le_log2 hn).mpr (Nat.le_of_dvd (Nat.pos_of_ne_zero hn) hdvd)

/-- **One bit is set iff it is both the lowest and the highest one.** -/
theorem isPowerOfTwo_iff_eq_log2 : isPowerOfTwo n = true ↔ k = n.toNat.log2 := by
  rw [isPowerOfTwo_iff]
  constructor
  · rintro ⟨j, -, hj⟩
    rw [hj, Nat.log2_two_pow]
    exact Option.some.inj (hk.symm.trans (leastSigBit?_eq_some_of_toNat hj))
  · rintro rfl
    have hn := toNat_ne_zero_of_leastSigBit? hk
    have hdvd := (leastSigBit?_eq_some_iff.mp hk).1
    exact ⟨_, (Nat.log2_lt hn).mpr n.isLt, eq_two_pow_of_dvd hn hdvd Nat.lt_log2_self⟩

end

/-- The counts of a word that is not zero, `lowest` being the index of its lowest set bit. -/
structure CountsAgree (n : BitVec 32) (lowest : ℕ) : Prop where
  leastSigBit?_eq : leastSigBit? n = some lowest
  leadingZeros_lt : leadingZeros n < 32
  /-- The leading zeros bound the word from both sides. -/
  two_pow_le : 2 ^ (31 - leadingZeros n) ≤ n.toNat
  lt_two_pow : n.toNat < 2 ^ (32 - leadingZeros n)
  /-- The lowest set bit is the greatest power of two that divides the word. -/
  leastSigBit?_eq_some_iff : ∀ k,
    leastSigBit? n = some k ↔ 2 ^ k ∣ n.toNat ∧ ¬ 2 ^ (k + 1) ∣ n.toNat
  /-- The lowest set bit is not above the highest one. -/
  add_leadingZeros_le : lowest + leadingZeros n ≤ 31
  isPowerOfTwo_iff_add : isPowerOfTwo n = true ↔ lowest + leadingZeros n = 31
  isPowerOfTwo_iff : isPowerOfTwo n = true ↔ ∃ j : ℕ, j < 32 ∧ n.toNat = 2 ^ j
  eq_of_toNat_eq : ∀ j, n.toNat = 2 ^ j → j = lowest

/-- **The bit counts of a word agree.** A word that is not zero has a lowest set bit, to which its
counts are tied; zero has all zeros leading, no lowest set bit, and is no power of two. -/
theorem exists_countsAgree (n : BitVec 32) :
    (0 < n.toNat → ∃ lowest, CountsAgree n lowest) ∧
    leadingZeros 0#32 = 32 ∧ leastSigBit? 0#32 = none ∧ isPowerOfTwo 0#32 = false := by
  refine ⟨fun hpos => ?_, by decide, by decide, by decide⟩
  have hn : n.toNat ≠ 0 := Nat.ne_of_gt hpos
  obtain ⟨lowest, hk⟩ := Option.ne_none_iff_exists'.mp (mt leastSigBit?_eq_none_iff.mp hn)
  have hlog := leadingZeros_add_log2 hn
  have hle := leastSigBit?_le_log2 hk
  have htop : 31 - leadingZeros n = n.toNat.log2 := by omega
  have hnext : 32 - leadingZeros n = n.toNat.log2 + 1 := by omega
  exact ⟨lowest, {
    leastSigBit?_eq := hk
    leadingZeros_lt := by omega
    two_pow_le := htop ▸ Nat.log2_self_le hn
    lt_two_pow := hnext ▸ Nat.lt_log2_self
    leastSigBit?_eq_some_iff := fun k => leastSigBit?_eq_some_iff
    add_leadingZeros_le := by omega
    isPowerOfTwo_iff_add := by
      rw [isPowerOfTwo_iff_eq_log2 hk]
      omega
    isPowerOfTwo_iff := isPowerOfTwo_iff
    eq_of_toNat_eq := by
      intro j hj
      exact Option.some.inj ((leastSigBit?_eq_some_of_toNat hj).symm.trans hk) }⟩

/-- The highest bit by itself is a power of two without leading zeros. -/
theorem exists_countsAgree_highest :
    0 < (0x80000000#32).toNat ∧ isPowerOfTwo 0x80000000#32 = true ∧
      leastSigBit? 0x80000000#32 = some 31 ∧ leadingZeros 0x80000000#32 = 0 := by
  have hpos : 0 < (0x80000000#32).toNat := by decide
  have hpow : (0x80000000#32).toNat = 2 ^ 31 := by decide
  obtain ⟨lowest, h⟩ := (exists_countsAgree 0x80000000#32).1 hpos
  have hsingle := h.isPowerOfTwo_iff.mpr ⟨31, by decide, hpow⟩
  obtain rfl := h.eq_of_toNat_eq 31 hpow
  have hadd := h.isPowerOfTwo_iff_add.mp hsingle
  exact ⟨hpos, hsingle, h.leastSigBit?_eq, by omega⟩

/-- Bits apart from each other are no power of two. -/
example : leadingZeros 0x000000b0#32 = 24 ∧ leastSigBit? 0x000000b0#32 = some 4 ∧
    isPowerOfTwo 0x000000b0#32 = false := by
  decide

/-! ### One byte -/

/-- One signed byte has room for the numbers of signed bytes. -/
theorem isOneByteSigned_iff : isOneByteSigned n = true ↔ -128 ≤ n.toInt ∧ n.toInt ≤ 127 := by
  have hlt := n.isLt
  simp only [isOneByteSigned, Bool.or_eq_true, beq_iff_eq, ← BitVec.toNat_inj,
    BitVec.toNat_ushiftRight, Nat.shiftRight_eq_div_pow, BitVec.toInt_eq_toNat_cond]
  split <;> simp <;> omega

/-- **A word that fits one signed byte is the sign extension of its low byte**, and conversely. -/
theorem isOneByteSigned_iff_signExtend :
    isOneByteSigned n = true ↔ n = (n.setWidth 8).signExtend 32 := by
  rw [isOneByteSigned_iff, eq_comm, signExtend_setWidth_eq_iff (by decide)]
  exact Iff.rfl

end Word

end ConstFold
