import ConstFold.Fold.Basic
import ConstFold.Proofs.Condition.Basic
import ConstFold.Proofs.Value.Compare

/-!
# Rewriting tests

A test, like a three-way comparison, is a function of the outcome of comparing two constants. So
each of the rewrites that a compiler performs on tests is known by what it does to the outcome:
swapped operands reverse it, negation leaves it alone, and to compare the value of a three-way
comparison with zero is to compare what the outcome settles as.

None of the rewrites makes a failing test succeed, or the other way round, since whether two
constants can be compared does not depend on what is done with the outcome.

## Main results

* `test_reverse_and_invert` — swapping the operands of a test, and negating it
* `test_ternary` — a three-way comparison and a test of its sign are one test
-/

namespace ConstFold

/-- Two functions of a traced result one after the other. -/
theorem Traced.map_map_except {ε α β γ : Type} (f : α → β) (g : β → γ)
    (t : Traced (Except ε α)) :
    (t.map (Except.map f)).map (Except.map g) = t.map (Except.map fun x => g (f x)) := by
  obtain ⟨result, events⟩ := t
  cases result <;> rfl

namespace Fold

/-! ### Tests as functions of the outcome -/

theorem result_compare (a b : Value) (unsigned : Bool) :
    (compare a b unsigned).result = a.compare b unsigned := by
  rw [compare]
  split
  case h_1 h => exact h.symm
  case h_2 h => exact h.symm

theorem result_test (mask : Mask) (a b : Value) (unsigned : Bool) :
    (test mask a b unsigned).result = (a.compare b unsigned).map mask.apply :=
  congrArg (Except.map mask.apply) (result_compare a b unsigned)

theorem result_ternary (comparator : ThreeWay) (a b : Value) :
    (ternary comparator a b).result = (a.compare b false).map comparator.apply :=
  congrArg (Except.map comparator.apply) (result_compare a b false)

/-! ### Swapping and negating -/

/-- A function of the outcome for swapped operands. -/
theorem map_compare_swap {α : Type} {f g : Condition → α} (h : ∀ c, g c.reverse = f c)
    (a b : Value) (unsigned : Bool) :
    (b.compare a unsigned).map g = ((a.compare b unsigned).map f).mapError KindError.swap := by
  rw [Value.compare_swap]
  cases a.compare b unsigned with
  | ok c => exact congrArg Except.ok (h c)
  | error e => rfl

/-- **Tests may be swapped and negated.** The reversed mask and the reversed comparator answer on
swapped operands what the given ones do on the operands, and fail with the swapped error if these
fail. The inverted ones answer the negation; they fail and report as the given ones do. -/
theorem test_reverse_and_invert (mask : Mask) (comparator : ThreeWay) (a b : Value)
    (unsigned : Bool) :
    (test mask.reverse b a unsigned).result
        = (test mask a b unsigned).result.mapError KindError.swap ∧
      (ternary comparator.reverse b a).result
        = (ternary comparator a b).result.mapError KindError.swap ∧
      test mask.invert a b unsigned = (test mask a b unsigned).map (Except.map not) ∧
      ternary comparator.invert a b = (ternary comparator a b).map (Except.map fun t => -t) := by
  refine ⟨?_, ?_, ?_, ?_⟩
  · rw [result_test, result_test]
    refine map_compare_swap (fun c => ?_) a b unsigned
    rw [mask.apply_reverse, c.reverse_reverse]
  · rw [result_ternary, result_ternary]
    refine map_compare_swap (fun c => ?_) a b false
    rw [comparator.apply_reverse, c.reverse_reverse]
  · rw [test, test, Traced.map_map_except]
    exact congrArg (fun f => (compare a b unsigned).map (Except.map f)) (funext mask.apply_invert)
  · rw [ternary, ternary, Traced.map_map_except]
    exact congrArg (fun f => (compare a b false).map (Except.map f))
      (funext comparator.apply_invert)

/-- On data, not to be less is to be greater, equal or unordered. -/
example : Mask.lt.invert = .uge ∧
    (test .uge (.float32 (.nan _)) (.float32 (.zero _)) false).result = .ok true ∧
    (test .ge (.float32 (.nan _)) (.float32 (.zero _)) false).result = .ok false := by
  refine ⟨?_, ?_, ?_⟩ <;> decide

/-! ### Testing the value of a three-way comparison -/

/-- Comparing the value of a comparator with zero gives the settled outcome. -/
theorem compare_value_zero (k : ThreeWay) (c : Condition) :
    (Value.int32 (.ofInt 32 (k.apply c))).compare (.int32 0#32) false = .ok (k.settle c) := by
  show Except.ok (compareWords false (.ofInt 32 (k.apply c)) 0#32) = .ok (k.settle c)
  rw [compareWords, if_neg Bool.false_ne_true, k.toInt_ofInt_apply, BitVec.toInt_zero,
    k.ofOrdering_compare_apply]

/-- **A three-way comparison and a test of its sign are one test.** The masks that the fused test
can have are those that accept what settles into the given one. With each of them it fails with
the error of the three-way comparison if that fails; otherwise it answers what the given mask does
on the value of the comparison, a constant, and zero. -/
theorem test_ternary (k : ThreeWay) (mask : Mask) :
    k.Fuses mask (k.fuse mask) ∧
      ∀ fused, k.Fuses mask fused → ∀ a b : Value,
        (∃ t r, (ternary k a b).result = .ok t ∧ (test fused a b false).result = .ok r ∧
          (BitVec.ofInt 32 t).toInt = t ∧
          (test mask (.int32 (.ofInt 32 t)) (.int32 0#32) false).result = .ok r) ∨
        (∃ e, (ternary k a b).result = .error e ∧ (test fused a b false).result = .error e) := by
  refine ⟨k.fuses_fuse mask, fun fused h a b => ?_⟩
  rw [result_ternary, result_test]
  cases a.compare b false with
  | ok c =>
    refine Or.inl ⟨k.apply c, fused.apply c, rfl, rfl, k.toInt_ofInt_apply c, ?_⟩
    rw [result_test, compare_value_zero, h.apply_eq]
    rfl
  | error e => exact Or.inr ⟨e, rfl, rfl⟩

/-- An unordered pair is on the greater side of a swapped comparator that puts it there, so a test
for greater or equal is one for less, equal or unordered; unknown bits do not matter. -/
theorem test_ternary_unordered :
    ThreeWay.swappedNanHigh.Fuses ⟨0x56#8⟩ ⟨0xab#8⟩ ∧
      (ternary .swappedNanHigh (.float32 (.nan _)) (.float32 (.zero _))).result = .ok 1 ∧
      (test ⟨0xab#8⟩ (.float32 (.nan _)) (.float32 (.zero _)) false).result = .ok true ∧
      (test ⟨0x56#8⟩ (.int32 1#32) (.int32 0#32) false).result = .ok true := by
  have hfuses : ThreeWay.swappedNanHigh.Fuses ⟨0x56#8⟩ ⟨0xab#8⟩ := ⟨by decide, by decide⟩
  have hvalue : (ternary .swappedNanHigh (.float32 (.nan _)) (.float32 (.zero _))).result
      = .ok 1 := by decide
  have hfused : (test ⟨0xab#8⟩ (.float32 (.nan _)) (.float32 (.zero _)) false).result
      = .ok true := by decide
  obtain ⟨t, r, ht, hr, -, htest⟩ | ⟨e, he, -⟩ :=
    (test_ternary .swappedNanHigh ⟨0x56#8⟩).2 ⟨0xab#8⟩ hfuses (.float32 (.nan _))
      (.float32 (.zero _))
  · obtain rfl := Except.ok.inj (ht.symm.trans hvalue)
    obtain rfl := Except.ok.inj (hr.symm.trans hfused)
    exact ⟨hfuses, hvalue, hfused, htest⟩
  · exact absurd (he.symm.trans hvalue) (by simp)

end Fold

end ConstFold
