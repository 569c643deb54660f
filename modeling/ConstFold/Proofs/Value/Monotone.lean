import ConstFold.Proofs.Binary.Monotone
import ConstFold.Proofs.Value.Compare
import ConstFold.Proofs.Value.Convert

/-!
# Converting constants respects their order

Two constants that compare as less or equal still do after they are converted to a numeric kind.
Rounding, truncation, saturation and overflow may merge them, but they never change places and
never become unordered. Only dropping the high bits of a 64-bit integer has no respect for order.

In each kind `Le` is the order of one integer: the signed number of a word, the rank of a datum.
So a conversion of constants is monotone as its function on those integers is, which is
`Binary.rank_ofInt_mono`, `Binary.rank_convert_mono` and `Binary.toInt_toWord_mono`.

Where the destination embeds the kind, comparing the results is comparing the constants, and that
holds for NaNs too: they stay NaNs.

## Main definitions

* `Kind.embeds` — every constant of one kind is exact in the other
* `Value.ConvertLe` — the results of converting two constants are in order

## Main results

* `convertLe` — conversions between numeric kinds are monotone, but for one
* `convert_monotone` — together with the exact outcome where nothing is lost
-/

namespace ConstFold

/-- Whether a kind holds every constant of another, smaller kind exactly. These are the three
lossless conversions; every other one between different kinds
rounds, wraps or saturates somewhere. -/
def Kind.embeds : Kind → Kind → Bool
  | .int32, .int64 | .int32, .float64 | .float32, .float64 => true
  | _, _ => false

/-! ### Comparisons that a conversion does not change -/

theorem compareWords_widen (a b : BitVec 32) :
    compareWords false (widen a) (widen b) = compareWords false a b := by
  rw [compareWords, toInt_widen, toInt_widen]
  rfl

namespace Binary

variable {f g : Format}

/-- Integers that a format holds are compared as data as they are compared as integers. -/
theorem compare_ofInt {m n : ℤ} (hm : f.Holds m) (hn : f.Holds n) :
    (ofInt f m).compare (ofInt f n) = .ofOrdering (Ord.compare m n) := by
  have hdata := orders_compare (isNaN_ofInt f m) (isNaN_ofInt f n)
  rw [toExtended_of_isFinite (isQuotient_ofInt hm).finite, toRat_ofInt hm,
    toExtended_of_isFinite (isQuotient_ofInt hn).finite, toRat_ofInt hn] at hdata
  have hints := (Condition.orders_ofOrdering m n).strictMono extendedOfInt_strictMono
  exact hdata.eq_ofOrdering.trans hints.eq_ofOrdering.symm

/-- Data are compared in a larger format as they are in their own, NaNs included. -/
theorem compare_convert (hfg : f.Within g) (a b : Binary f) :
    (a.convert g).compare (b.convert g) = a.compare b := by
  by_cases hnan : a.isNaN = true ∨ b.isNaN = true
  · have hnan' : (a.convert g).isNaN = true ∨ (b.convert g).isNaN = true := by
      refine hnan.imp (fun ha => ?_) fun hb => ?_
      · rw [convert_of_isNaN ha, isNaN_nan]
      · rw [convert_of_isNaN hb, isNaN_nan]
    rw [compare_eq_un hnan, compare_eq_un hnan']
  · rw [not_or, Bool.not_eq_true, Bool.not_eq_true] at hnan
    obtain ⟨ha, hb⟩ := hnan
    have hconv := orders_compare (isNaN_convert ha g) (isNaN_convert hb g)
    rw [toExtended_convert hfg ha, toExtended_convert hfg hb] at hconv
    exact hconv.eq_ofOrdering.trans (orders_compare ha hb).eq_ofOrdering.symm

end Binary

namespace Value

/-! ### The order of each kind -/

theorem le_iff_of_orders {α : Type*} [LinearOrder α] {a b : Value} {u : Bool} {c : Condition}
    {x y : α} (h : a.compare b u = .ok c) (ho : c.Orders x y) : a.Le u b ↔ x ≤ y := by
  rw [Le, h, Except.ok.injEq, Except.ok.injEq, ho.eq_lt_or_eq_iff]

theorem le_int32_iff {a b : BitVec 32} :
    (int32 a).Le false (int32 b) ↔ a.toInt ≤ b.toInt :=
  le_iff_of_orders rfl (orders_compareWords false a b)

theorem le_int64_iff {a b : BitVec 64} :
    (int64 a).Le false (int64 b) ↔ a.toInt ≤ b.toInt :=
  le_iff_of_orders rfl (orders_compareWords false a b)

theorem le_float32_iff {a b : Binary .binary32} (ha : a.isNaN = false) (hb : b.isNaN = false) :
    (float32 a).Le false (float32 b) ↔ a.rank ≤ b.rank :=
  le_iff_of_orders rfl (Binary.orders_compare_rank ha hb)

theorem le_float64_iff {a b : Binary .binary64} (ha : a.isNaN = false) (hb : b.isNaN = false) :
    (float64 a).Le false (float64 b) ↔ a.rank ≤ b.rank :=
  le_iff_of_orders rfl (Binary.orders_compare_rank ha hb)

/-! ### Monotone conversions, by the kind converted from -/

/-- Both constants can be converted to the kind, and the results are in order. -/
def ConvertLe (a b : Value) (dest : Kind) : Prop :=
  ∃ a' b', a.convert dest = .ok a' ∧ b.convert dest = .ok b' ∧ a'.Le false b'

section

variable {w : ℕ} {a b : BitVec w} (h : a.toInt ≤ b.toInt)
include h

theorem le_float32_ofWord : (float32 (.ofWord _ a)).Le false (float32 (.ofWord _ b)) :=
  (le_float32_iff (Binary.isNaN_ofInt ..) (Binary.isNaN_ofInt ..)).mpr (Binary.rank_ofInt_mono _ h)

theorem le_float64_ofWord : (float64 (.ofWord _ a)).Le false (float64 (.ofWord _ b)) :=
  (le_float64_iff (Binary.isNaN_ofInt ..) (Binary.isNaN_ofInt ..)).mpr (Binary.rank_ofInt_mono _ h)

end

section

variable {f : Format} {a b : Binary f} (ha : a.isNaN = false) (hb : b.isNaN = false)
  (h : a.rank ≤ b.rank)
include ha hb h

theorem le_int32_toWord : (int32 (a.toWord 32)).Le false (int32 (b.toWord 32)) :=
  le_int32_iff.mpr (Binary.toInt_toWord_mono ha hb h 32)

theorem le_int64_toWord : (int64 (a.toWord 64)).Le false (int64 (b.toWord 64)) :=
  le_int64_iff.mpr (Binary.toInt_toWord_mono ha hb h 64)

end

variable {dest : Kind} (hd : dest.isNumeric = true)
include hd

theorem convertLe_int32 {a b : BitVec 32} (h : a.toInt ≤ b.toInt) :
    ConvertLe (int32 a) (int32 b) dest := by
  cases dest with
  | int32 => exact ⟨_, _, rfl, rfl, le_int32_iff.mpr h⟩
  | int64 =>
    refine ⟨_, _, rfl, rfl, le_int64_iff.mpr ?_⟩
    rwa [toInt_widen, toInt_widen]
  | float32 => exact ⟨_, _, rfl, rfl, le_float32_ofWord h⟩
  | float64 => exact ⟨_, _, rfl, rfl, le_float64_ofWord h⟩
  | void | addr | cond | memory | tuple => exact absurd hd Bool.false_ne_true

theorem convertLe_int64 {a b : BitVec 64} (h : a.toInt ≤ b.toInt) (hne : dest ≠ .int32) :
    ConvertLe (int64 a) (int64 b) dest := by
  cases dest with
  | int32 => exact absurd rfl hne
  | int64 => exact ⟨_, _, rfl, rfl, le_int64_iff.mpr h⟩
  | float32 => exact ⟨_, _, rfl, rfl, le_float32_ofWord h⟩
  | float64 => exact ⟨_, _, rfl, rfl, le_float64_ofWord h⟩
  | void | addr | cond | memory | tuple => exact absurd hd Bool.false_ne_true

theorem convertLe_float32 {a b : Binary .binary32} (ha : a.isNaN = false) (hb : b.isNaN = false)
    (h : a.rank ≤ b.rank) : ConvertLe (float32 a) (float32 b) dest := by
  cases dest with
  | int32 => exact ⟨_, _, rfl, rfl, le_int32_toWord ha hb h⟩
  | int64 => exact ⟨_, _, rfl, rfl, le_int64_toWord ha hb h⟩
  | float32 => exact ⟨_, _, rfl, rfl, (le_float32_iff ha hb).mpr h⟩
  | float64 =>
    refine ⟨_, _, rfl, rfl, ?_⟩
    rw [le_float64_iff (Binary.isNaN_convert ha _) (Binary.isNaN_convert hb _)]
    exact Binary.rank_convert_mono ha hb h _
  | void | addr | cond | memory | tuple => exact absurd hd Bool.false_ne_true

theorem convertLe_float64 {a b : Binary .binary64} (ha : a.isNaN = false) (hb : b.isNaN = false)
    (h : a.rank ≤ b.rank) : ConvertLe (float64 a) (float64 b) dest := by
  cases dest with
  | int32 => exact ⟨_, _, rfl, rfl, le_int32_toWord ha hb h⟩
  | int64 => exact ⟨_, _, rfl, rfl, le_int64_toWord ha hb h⟩
  | float32 =>
    refine ⟨_, _, rfl, rfl, ?_⟩
    rw [le_float32_iff (Binary.isNaN_convert ha _) (Binary.isNaN_convert hb _)]
    exact Binary.rank_convert_mono ha hb h _
  | float64 => exact ⟨_, _, rfl, rfl, (le_float64_iff ha hb).mpr h⟩
  | void | addr | cond | memory | tuple => exact absurd hd Bool.false_ne_true

/-- Constants of a numeric kind that are in order stay in order, unless their high bits are
dropped. -/
theorem convertLe {a b : Value} (hnum : a.kind.isNumeric = true) (hk : b.kind = a.kind)
    (ha : a.isNaN = false) (hb : b.isNaN = false) (hne : (a.kind, dest) ≠ (.int64, .int32))
    (h : a.Le false b) : ConvertLe a b dest := by
  cases hk using cases_of_kind_eq with
  | int32 a b => exact convertLe_int32 hd (le_int32_iff.mp h)
  | int64 a b =>
    exact convertLe_int64 hd (le_int64_iff.mp h) fun hdest => hne (by rw [hdest]; rfl)
  | float32 a b => exact convertLe_float32 hd ha hb ((le_float32_iff ha hb).mp h)
  | float64 a b => exact convertLe_float64 hd ha hb ((le_float64_iff ha hb).mp h)
  | addr _ _ | cond _ _ | memory _ _ => exact absurd hnum Bool.false_ne_true

omit hd

/-- A kind that embeds another one gives every comparison its outcome. -/
theorem exists_compare_convert {a b : Value} (hk : b.kind = a.kind)
    (h : a.kind.embeds dest = true) :
    ∃ a' b', a.convert dest = .ok a' ∧ b.convert dest = .ok b' ∧
      a'.compare b' false = a.compare b false := by
  cases hk using cases_of_kind_eq with
  | int32 a b =>
    cases dest with
    | int64 => exact ⟨_, _, rfl, rfl, congrArg Except.ok (compareWords_widen a b)⟩
    | float64 =>
      exact ⟨_, _, rfl, rfl,
        congrArg Except.ok (Binary.compare_ofInt (holds_toInt a) (holds_toInt b))⟩
    | void | int32 | float32 | addr | cond | memory | tuple => exact absurd h Bool.false_ne_true
  | float32 a b =>
    cases dest with
    | float64 =>
      exact ⟨_, _, rfl, rfl,
        congrArg Except.ok (Binary.compare_convert binary32_within_binary64 a b)⟩
    | void | int32 | int64 | float32 | addr | cond | memory | tuple =>
      exact absurd h Bool.false_ne_true
  | int64 _ _ | float64 _ _ | addr _ _ | cond _ _ | memory _ _ =>
    exact absurd h Bool.false_ne_true

/-- **Conversion respects comparison.** Between numeric kinds, constants that compare as less or
equal are converted to constants that do, with the one exception of dropping high bits; and where
the destination embeds the kind, every two constants compare after the conversion as before. -/
theorem convert_monotone {k dest : Kind} (hk : k.isNumeric = true) (hd : dest.isNumeric = true) :
    ((k, dest) ≠ (.int64, .int32) → ∀ a ∈ ordered k, ∀ b ∈ ordered k, a.Le false b →
      ∃ a' b', a.convert dest = .ok a' ∧ b.convert dest = .ok b' ∧ a'.Le false b') ∧
    (k.embeds dest = true → ∀ a b : Value, a.kind = k → b.kind = k →
      ∃ a' b', a.convert dest = .ok a' ∧ b.convert dest = .ok b' ∧
        a'.compare b' false = a.compare b false) := by
  constructor
  · rintro hne a ⟨rfl, ha⟩ b ⟨hkind, hb⟩ h
    exact convertLe hd hk hkind ha hb hne h
  · rintro hemb a b rfl hkind
    exact exists_compare_convert hkind hemb

/-- The greatest finite double overflows to what it was below; a signaling NaN stays unordered. -/
theorem convert_monotone_overflow :
    Kind.float64.isNumeric = true ∧ Kind.float32.isNumeric = true ∧
      (float64 (.ofCode _ false 0x7fefffffffffffff)).Le false (float64 (.infinity _ false)) ∧
      (float64 (.ofCode _ false 0x7fefffffffffffff)).convert .float32
        = .ok (float32 (.infinity _ false)) ∧
      (float32 (.infinity _ false)).Le false (float32 (.infinity _ false)) ∧
      (float32 (.ofCode _ true 0x7f800001)).convert .float64 = .ok (float64 (.nan _)) ∧
      (float64 (.nan _)).compare (float64 (.zero _)) false = .ok .un := by
  have hnum : Kind.float32.isNumeric = true := rfl
  have hnum' : Kind.float64.isNumeric = true := rfl
  have hle : (float64 (.ofCode _ false 0x7fefffffffffffff)).Le false
      (float64 (.infinity _ false)) := Or.inl (by decide)
  have hover : (float64 (.ofCode _ false 0x7fefffffffffffff)).convert .float32
      = .ok (float32 (.infinity _ false)) := by decide +kernel
  have hzero : (float32 (.zero _)).convert .float64 = .ok (float64 (.zero _)) := by
    decide +kernel
  have hnan : (float32 (.ofCode _ true 0x7f800001)).convert .float64 = .ok (float64 (.nan _)) := by
    decide
  obtain ⟨a, b, ha, hb, hab⟩ := (convert_monotone hnum' hnum).1 (by decide)
    _ ⟨rfl, by decide⟩ _ ⟨rfl, by decide⟩ hle
  obtain rfl := Except.ok.inj (ha.symm.trans hover)
  obtain rfl := Except.ok.inj (hb.symm.trans rfl)
  obtain ⟨c, d, hc, hd, hcd⟩ := (convert_monotone hnum hnum').2 rfl
    (float32 (.ofCode _ true 0x7f800001)) (float32 (.zero _)) rfl rfl
  obtain rfl := Except.ok.inj (hc.symm.trans hnan)
  obtain rfl := Except.ok.inj (hd.symm.trans hzero)
  exact ⟨hnum', hnum, hle, hover, hab, hnan, hcd.trans (by decide)⟩

/-- Dropping the high bits has no respect for order. -/
example : (int64 0#64).Le false (int64 0x80000000#64) ∧
    (int64 0#64).convert .int32 = .ok (int32 0#32) ∧
    (int64 0x80000000#64).convert .int32 = .ok (int32 0x80000000#32) ∧
    (int32 0#32).compare (int32 0x80000000#32) false = .ok .gt := by
  refine ⟨Or.inl ?_, ?_, ?_, ?_⟩ <;> decide

end Value

end ConstFold
