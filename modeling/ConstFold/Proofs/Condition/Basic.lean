import ConstFold.Condition.Basic

/-!
# Masks as sets, comparators as signs

What a mask is for is which outcomes it accepts, and it accepts an outcome iff it has the bit of
that outcome (`Mask.apply_eq_getLsbD`). So an operation on masks is known by what it does to single
bits, and the upper four bits of a byte never come into it.

A three-way comparator *settles* an outcome: it swaps it if its operands are swapped, and puts an
unordered one on its side, so that what is left is less, equal or greater. Its value is the sign of
the settled outcome. A test of that sign is therefore a test of the outcome itself, by the mask
that accepts what settles into the given mask.

## Main definitions

* `ThreeWay.settle` — the ordered outcome as which a comparator takes an outcome
* `ThreeWay.Fuses`, `ThreeWay.fuse` — the mask that takes the place of a comparator and a mask

## Main results

* `Mask.apply_reverse`, `Mask.apply_invert` — the tests for swapped operands and of the negation
* `Mask.apply_union`, `Mask.apply_inter`, `Mask.apply_diff`, … — set operations
* `Mask.contains_ofCondition`, `Mask.inter_ord_eq_iff` — bits told from what is accepted
* `ThreeWay.apply_reverse`, `ThreeWay.apply_invert` — the comparators for swapped operands and of
  the negation
* `Fuses.apply_eq` — a fused mask accepts what settles into the mask
* `fuses_fuse` — there is a fused mask for every comparator and mask
-/

namespace ConstFold

namespace Condition

theorem bits_ne_zero (c : Condition) : c.bits ≠ 0#8 := by
  cases c <;> decide

/-- The bit of an outcome is at its ordinal. -/
theorem and_bits (x : BitVec 8) (c : Condition) :
    x &&& c.bits = if x.getLsbD c.ordinal then c.bits else 0#8 := by
  have hbits : c.bits = BitVec.twoPow 8 c.ordinal := by cases c <;> rfl
  rw [hbits, BitVec.and_twoPow]

end Condition

namespace Mask

/-- **To accept an outcome is to have its bit.** -/
theorem apply_eq_getLsbD (m : Mask) (c : Condition) : m.apply c = m.bits.getLsbD c.ordinal := by
  rw [apply, c.and_bits]
  cases m.bits.getLsbD c.ordinal <;> simp [c.bits_ne_zero]

/-! ### Swapping and negating -/

theorem apply_reverse (m : Mask) (c : Condition) : m.reverse.apply c = m.apply c.reverse := by
  rw [apply_eq_getLsbD, apply_eq_getLsbD, reverse]
  cases c <;> simp [Condition.ordinal, Condition.reverse]

theorem apply_invert (m : Mask) (c : Condition) : m.invert.apply c = !m.apply c := by
  rw [apply_eq_getLsbD, apply_eq_getLsbD, invert]
  cases c <;> simp [Condition.ordinal, always]

/-! ### Set operations -/

theorem apply_union (a b : Mask) (c : Condition) :
    (a.union b).apply c = (a.apply c || b.apply c) := by
  simp only [apply_eq_getLsbD, union, BitVec.getLsbD_or]

theorem apply_inter (a b : Mask) (c : Condition) :
    (a.inter b).apply c = (a.apply c && b.apply c) := by
  simp only [apply_eq_getLsbD, inter, BitVec.getLsbD_and]

theorem apply_diff (a b : Mask) (c : Condition) :
    (a.diff b).apply c = (a.apply c && !b.apply c) := by
  have hc : c.ordinal < 8 := by cases c <;> decide
  simp only [apply_eq_getLsbD, diff, BitVec.getLsbD_and, BitVec.getLsbD_not, hc, decide_true,
    Bool.true_and]

theorem apply_symmDiff (a b : Mask) (c : Condition) :
    (a.symmDiff b).apply c = (a.apply c ^^ b.apply c) := by
  simp only [apply_eq_getLsbD, symmDiff, BitVec.getLsbD_xor]

theorem apply_always (c : Condition) : always.apply c = true := by
  cases c <;> decide

theorem apply_truncate (m : Mask) (c : Condition) : m.truncate.apply c = m.apply c := by
  show (m.inter always).apply c = m.apply c
  rw [apply_inter, apply_always, Bool.and_true]

theorem apply_complement (m : Mask) (c : Condition) : m.complement.apply c = !m.apply c := by
  show (truncate ⟨~~~m.bits⟩).apply c = !m.apply c
  have hc : c.ordinal < 8 := by cases c <;> decide
  rw [apply_truncate, apply_eq_getLsbD, apply_eq_getLsbD, BitVec.getLsbD_not, decide_eq_true hc,
    Bool.true_and]

theorem apply_ofCondition (c d : Condition) : (ofCondition c).apply d = decide (d = c) := by
  cases c <;> cases d <;> decide

theorem contains_ofCondition (m : Mask) (c : Condition) :
    m.contains (ofCondition c) = m.apply c := by
  rw [contains, ofCondition, apply_eq_getLsbD, c.and_bits]
  cases m.bits.getLsbD c.ordinal <;> simp [c.bits_ne_zero.symm]

/-- Masks have the same ordered bits if they accept the same ordered outcomes. -/
theorem inter_ord_eq_iff {a b : Mask} :
    a.inter ord = b.inter ord ↔ ∀ c, ord.apply c = true → a.apply c = b.apply c := by
  constructor
  · intro h c hc
    have happly := congrArg (fun m => m.apply c) h
    simpa only [apply_inter, hc, Bool.and_true] using happly
  · intro h
    have hlt := h .lt (by decide)
    have heq := h .eq (by decide)
    have hgt := h .gt (by decide)
    simp only [apply_eq_getLsbD, Condition.ordinal] at hlt heq hgt
    have hord : ord.bits = 0x07#8 := by decide
    refine congrArg Mask.mk (BitVec.eq_of_getLsbD_eq fun i hi => ?_)
    rw [BitVec.getLsbD_and, BitVec.getLsbD_and, hord]
    match i, hi with
    | 0, _ => rw [hlt]
    | 1, _ => rw [heq]
    | 2, _ => rw [hgt]
    | i + 3, _ =>
      have hzero : (0x07#8).getLsbD (i + 3) = false := by
        rw [BitVec.getLsbD_ofNat]
        simp [Nat.testBit_add]
      rw [hzero, Bool.and_false, Bool.and_false]

end Mask

namespace ThreeWay

/-! ### Swapping and negating -/

theorem apply_reverse (t : ThreeWay) (c : Condition) : t.reverse.apply c = t.apply c.reverse := by
  cases t <;> cases c <;> decide

theorem apply_invert (t : ThreeWay) (c : Condition) : t.invert.apply c = -t.apply c := by
  cases t <;> cases c <;> decide

/-! ### Settled outcomes -/

/-- Whether a comparator takes its operands in swapped order. -/
def isSwapped : ThreeWay → Bool
  | nanLow | nanHigh => false
  | swappedNanLow | swappedNanHigh => true

/-- The side on which a comparator puts an unordered outcome. -/
def unorderedAs : ThreeWay → Condition
  | nanLow | swappedNanLow => .lt
  | nanHigh | swappedNanHigh => .gt

/-- The ordered outcome as which a comparator takes an outcome: an unordered one goes to the side
that the comparator has for it, and all others are reversed if the operands are swapped. The side of
an unordered outcome is that of the result, so it is not reversed again. -/
def settle (t : ThreeWay) : Condition → Condition
  | .un => t.unorderedAs
  | c => if t.isSwapped then c.reverse else c

/-- The value of a comparator has the sign of the settled outcome. -/
theorem ofOrdering_compare_apply (t : ThreeWay) (c : Condition) :
    Condition.ofOrdering (compare (t.apply c) 0) = t.settle c := by
  cases t <;> cases c <;> decide

/-- The value of a comparator is a 32-bit constant. -/
theorem toInt_ofInt_apply (t : ThreeWay) (c : Condition) :
    (BitVec.ofInt 32 (t.apply c)).toInt = t.apply c := by
  cases t <;> cases c <;> decide

/-! ### Fused masks -/

/-- A mask for the operands in the order in which a comparator takes them. -/
def orient (t : ThreeWay) (m : Mask) : Mask :=
  if t.isSwapped then m.reverse else m

/-- `fused` has the ordered bits of the mask for the comparator's operands, and the unordered bit
iff the mask has the bit of the side on which the comparator puts unordered outcomes. Unknown bits
are arbitrary. -/
structure Fuses (t : ThreeWay) (m fused : Mask) : Prop where
  ordered : fused.inter .ord = (t.orient m).inter .ord
  unordered : fused.contains .unord = m.contains (.ofCondition t.unorderedAs)

/-- The fused mask without unknown bits. -/
def fuse (t : ThreeWay) (m : Mask) : Mask :=
  ((t.orient m).inter .ord).union
    (if m.contains (.ofCondition t.unorderedAs) then .unord else .never)

theorem apply_orient (t : ThreeWay) (m : Mask) (c : Condition) :
    (t.orient m).apply c = m.apply (if t.isSwapped then c.reverse else c) := by
  rw [orient]
  cases t.isSwapped with
  | false => rfl
  | true => exact m.apply_reverse c

/-- **A fused mask accepts what settles into the mask.** -/
theorem Fuses.apply_eq {t : ThreeWay} {m fused : Mask} (h : t.Fuses m fused) (c : Condition) :
    fused.apply c = m.apply (t.settle c) := by
  have hordered := Mask.inter_ord_eq_iff.mp h.ordered
  cases c with
  | lt | eq | gt =>
    rw [hordered _ (by decide), apply_orient]
    rfl
  | un =>
    rw [settle, ← Mask.contains_ofCondition, ← Mask.contains_ofCondition]
    exact h.unordered

theorem fuses_fuse (t : ThreeWay) (m : Mask) : t.Fuses m (t.fuse m) := by
  constructor
  · refine Mask.inter_ord_eq_iff.mpr fun c hc => ?_
    have hnone : (if m.contains (.ofCondition t.unorderedAs) then Mask.unord else .never).apply c
        = false := by
      cases c with
      | lt | eq | gt => split <;> decide
      | un => exact absurd hc (by decide)
    rw [fuse, Mask.apply_union, Mask.apply_inter, hc, hnone, Bool.and_true, Bool.or_false]
  · have hord : Mask.ord.apply .un = false := by decide
    rw [Mask.unord, Mask.contains_ofCondition, fuse, Mask.apply_union, Mask.apply_inter, hord,
      Bool.and_false, Bool.false_or]
    cases m.contains (.ofCondition t.unorderedAs) <;> decide

end ThreeWay

end ConstFold
