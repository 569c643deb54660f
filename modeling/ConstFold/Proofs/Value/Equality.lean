import ConstFold.Proofs.Binary.Monotone
import ConstFold.Proofs.Value.Compare
import ConstFold.Value.Identity

/-!
# Numeric equality and identity

Constants can be equal in two senses: by the numbers they denote, as comparison has it, or by their
bits. The two come close. Different patterns of one kind denote different numbers, whether words are
read with a sign or without, except for the two zeros of a float kind. And a pattern is equal to
itself unless it is a NaN, which denotes no number.

So `Value.compare` is identity, less the NaNs and plus one pair for each float kind.

## Main definitions

* `Value.IsFloatZero` — a float zero, with its sign

## Main results

* `Binary.toExtended_eq_iff`, `Value.denote_eq_iff` — what denotes the same number
* `Value.compare_eq_ok_eq_iff` — what compares equal
* `Value.compare_eq_iff_eqBits` — numeric equality by identity, and where the two differ
-/

namespace ConstFold

namespace Condition.Orders

variable {α : Type*} [LinearOrder α] {c : Condition} {x y : α}

theorem eq_lt_iff (h : c.Orders x y) : c = lt ↔ x < y := by
  rw [h.eq_ofOrdering, ← compare_lt_iff_lt]
  cases compare x y <;> simp [ofOrdering]

theorem eq_eq_iff (h : c.Orders x y) : c = eq ↔ x = y := by
  rw [h.eq_ofOrdering, ← compare_eq_iff_eq (a := x)]
  cases compare x y <;> simp [ofOrdering]

theorem eq_gt_iff (h : c.Orders x y) : c = gt ↔ y < x := by
  rw [h.eq_ofOrdering, ← compare_gt_iff_gt]
  cases compare x y <;> simp [ofOrdering]

end Condition.Orders

/-! ### Data -/

namespace Binary

variable {f : Format} {a b : Binary f}

/-- Data of one rank are the same, or both are zeros: only where the code is 0 the sign does not
show. -/
theorem rank_eq_rank_iff : a.rank = b.rank ↔ a = b ∨ a.isZero = true ∧ b.isZero = true := by
  constructor
  · intro h
    have hcode : a.code = b.code := by rw [← natAbs_rank a, h, natAbs_rank]
    rcases Nat.eq_zero_or_pos b.code with hz | hpos
    · exact Or.inr ⟨by simp [isZero, hcode, hz], by simp [isZero, hz]⟩
    · refine Or.inl (eq_of_negative_of_code ?_ hcode)
      rw [rank, rank, hcode] at h
      cases hs : a.negative <;> cases hs' : b.negative <;> simp [hs, hs'] at h ⊢ <;> omega
  · rintro (rfl | ⟨ha, hb⟩)
    · rfl
    · have ha : a.code = 0 := by simpa [isZero] using ha
      have hb : b.code = 0 := by simpa [isZero] using hb
      simp [rank, ha, hb]

/-- **Different patterns denote different numbers**, the two zeros apart: the rank of a datum that
is no NaN determines its code, and its sign unless the code is 0. -/
theorem toExtended_eq_iff (ha : a.isNaN = false) (hb : b.isNaN = false) :
    a.toExtended = b.toExtended ↔ a = b ∨ a.isZero = true ∧ b.isZero = true := by
  rw [← rank_eq_iff ha hb, rank_eq_rank_iff]

/-- There is one zero of each sign. -/
theorem isZero_iff : b.isZero = true ↔ b = ofCode f b.negative 0 := by
  constructor
  · intro h
    have hcode : b.code = 0 := by simpa [isZero] using h
    rw [← hcode, ofCode_negative_code]
  · intro h
    rw [h, isZero, code_ofCode]
    simp

theorem ofCode_zero_eq_iff {s t : Bool} : ofCode f s 0 = ofCode f t 0 ↔ s = t :=
  ⟨fun h => by simpa using congrArg negative h, congrArg (ofCode f · 0)⟩

end Binary

/-- A word is determined by its number, whichever way it is read. -/
theorem wordNumber_inj {w : ℕ} {unsigned : Bool} {a b : BitVec w} :
    wordNumber unsigned a = wordNumber unsigned b ↔ a = b := by
  cases unsigned with
  | false => exact BitVec.toInt_inj
  | true => exact Int.ofNat_inj.trans BitVec.toNat_inj

namespace Value

/-! ### Float zeros -/

/-- A zero of a float kind, negative or not. -/
inductive IsFloatZero : Value → Bool → Prop
  | float32 (negative : Bool) : IsFloatZero (.float32 (.ofCode _ negative 0)) negative
  | float64 (negative : Bool) : IsFloatZero (.float64 (.ofCode _ negative 0)) negative

variable {a b v : Value} {s t : Bool}

theorem exists_isFloatZero_iff :
    (∃ s, v.IsFloatZero s) ↔ v.kind.isFloating = true ∧ v.isZero = true := by
  constructor
  · rintro ⟨s, h⟩
    cases h <;> exact ⟨rfl, by simp [isZero, Binary.isZero]⟩
  · rintro ⟨hk, hz⟩
    cases v with
    | float32 b =>
      rw [Binary.isZero_iff.mp hz]
      exact ⟨_, .float32 _⟩
    | float64 b =>
      rw [Binary.isZero_iff.mp hz]
      exact ⟨_, .float64 _⟩
    | int32 _ | int64 _ | addr _ | cond _ | memory _ => exact absurd hk Bool.false_ne_true

theorem IsFloatZero.isNaN (h : v.IsFloatZero s) : v.isNaN = false := by
  cases h <;> simp [Value.isNaN, Binary.isNaN]

theorem IsFloatZero.isComparable (h : v.IsFloatZero s) : v.kind.isComparable = true := by
  cases h <;> rfl

/-- A kind has one zero of each sign. -/
theorem IsFloatZero.eq_iff (hk : b.kind = a.kind) (ha : a.IsFloatZero s) (hb : b.IsFloatZero t) :
    a = b ↔ s = t := by
  cases ha with
  | float32 =>
    cases hb with
    | float32 => rw [float32.injEq, Binary.ofCode_zero_eq_iff]
    | float64 => simp [kind] at hk
  | float64 =>
    cases hb with
    | float32 => simp [kind] at hk
    | float64 => rw [float64.injEq, Binary.ofCode_zero_eq_iff]

/-! ### Equal numbers -/

theorem isComparable_of_isNaN (h : v.isNaN = true) : v.kind.isComparable = true := by
  cases v with
  | float32 _ | float64 _ => rfl
  | int32 _ | int64 _ | addr _ | cond _ | memory _ => exact absurd h Bool.false_ne_true

theorem isComparable_iff (v : Value) :
    v.kind.isComparable = true ↔ v.kind ≠ .cond ∧ v.kind ≠ .memory := by
  cases v <;> simp [kind, Kind.isComparable, Kind.isNumeric, Kind.isInteger, Kind.isFloating]

/-- **Constants of one kind denote the same number** if they are the same, or float zeros. -/
theorem denote_eq_iff (u : Bool) (hk : b.kind = a.kind) (hc : a.kind.isComparable = true)
    (ha : a.isNaN = false) (hb : b.isNaN = false) :
    a.denote u = b.denote u ↔ a = b ∨ (∃ s, a.IsFloatZero s) ∧ ∃ t, b.IsFloatZero t := by
  rw [exists_isFloatZero_iff, exists_isFloatZero_iff]
  cases hk using cases_of_kind_eq with
  | int32 a b =>
    rw [denote, denote, extendedOfInt_strictMono.injective.eq_iff, wordNumber_inj]
    simp [kind, Kind.isFloating]
  | int64 a b =>
    rw [denote, denote, extendedOfInt_strictMono.injective.eq_iff, wordNumber_inj]
    simp [kind, Kind.isFloating]
  | float32 a b =>
    rw [denote, denote, Binary.toExtended_eq_iff ha hb]
    simp [kind, Kind.isFloating, isZero]
  | float64 a b =>
    rw [denote, denote, Binary.toExtended_eq_iff ha hb]
    simp [kind, Kind.isFloating, isZero]
  | addr a b =>
    obtain ⟨a⟩ := a
    obtain ⟨b⟩ := b
    rw [denote, denote, extendedOfInt_strictMono.injective.eq_iff, Int.ofNat_inj,
      BitVec.toNat_inj]
    simp [kind, Kind.isFloating]
  | cond _ _ | memory _ _ => exact absurd hc Bool.false_ne_true

/-- What compares equal within a comparable kind. -/
theorem compare_eq_ok_eq_iff_of_kind_eq (u : Bool) (hk : b.kind = a.kind)
    (hc : a.kind.isComparable = true) :
    a.compare b u = .ok .eq ↔
      a = b ∧ a.isNaN = false ∨ (∃ s, a.IsFloatZero s) ∧ ∃ t, b.IsFloatZero t := by
  by_cases hnan : a.isNaN = true ∨ b.isNaN = true
  · rw [compare_eq_un u hk hnan]
    constructor
    · intro h
      simp at h
    · rintro (⟨rfl, h⟩ | ⟨⟨s, ha⟩, t, hb⟩)
      · simp [h] at hnan
      · simp [ha.isNaN, hb.isNaN] at hnan
  · rw [not_or, Bool.not_eq_true, Bool.not_eq_true] at hnan
    obtain ⟨ha, hb⟩ := hnan
    obtain ⟨c, hcmp, hord⟩ := exists_orders u hk hc ha hb
    rw [hcmp, Except.ok.injEq, hord.eq_eq_iff, denote_eq_iff u hk hc ha hb, and_iff_left ha]

/-- **Constants compare equal** if they are of one comparable kind, and either the same and no NaN,
or both float zeros. -/
theorem compare_eq_ok_eq_iff (a b : Value) (u : Bool) :
    a.compare b u = .ok .eq ↔ a.kind = b.kind ∧ a.kind.isComparable = true ∧
      (a = b ∧ a.isNaN = false ∨ (∃ s, a.IsFloatZero s) ∧ ∃ t, b.IsFloatZero t) := by
  constructor
  · intro h
    obtain ⟨hk, hkinds⟩ := (exists_compare_iff a b u).mp ⟨_, h⟩
    have hc := (isComparable_iff a).mpr hkinds
    exact ⟨hk, hc, (compare_eq_ok_eq_iff_of_kind_eq u hk.symm hc).mp h⟩
  · rintro ⟨hk, hc, h⟩
    exact (compare_eq_ok_eq_iff_of_kind_eq u hk.symm hc).mpr h

/-- **Numeric equality is identity, but for NaNs and the signs of zeros.** Constants compare equal
if they are of one comparable kind, and either identical and no NaNs, or both float zeros. So those
that compare equal without being identical are the two zeros of a kind, and those that are identical
without comparing equal, where they can be compared, are the NaNs. -/
theorem compare_eq_iff_eqBits (a b : Value) (unsigned : Bool) :
    (a.compare b unsigned = .ok .eq ↔ a.kind = b.kind ∧ a.kind.isComparable = true ∧
      (a.eqBits b = true ∧ a.isNaN = false ∨ (∃ s, a.IsFloatZero s) ∧ ∃ t, b.IsFloatZero t)) ∧
    (a.compare b unsigned = .ok .eq ∧ a.eqBits b = false ↔
      a.kind = b.kind ∧ ∃ s, a.IsFloatZero s ∧ b.IsFloatZero (!s)) ∧
    (a.eqBits b = true ∧ a.kind.isComparable = true ∧ a.compare b unsigned ≠ .ok .eq ↔
      a.eqBits b = true ∧ a.isNaN = true) := by
  have hne : a.eqBits b = false ↔ ¬ a = b := by
    rw [← Bool.not_eq_true, eqBits_iff_eq]
  rw [eqBits_iff_eq, hne, ne_eq, compare_eq_ok_eq_iff]
  refine ⟨Iff.rfl, ⟨?_, ?_⟩, ⟨?_, ?_⟩⟩
  · rintro ⟨⟨hk, -, ⟨hid, -⟩ | ⟨⟨s, ha⟩, t, hb⟩⟩, hne⟩
    · exact absurd hid hne
    · -- the zeros of one sign are identical
      rw [ha.eq_iff hk.symm hb] at hne
      exact ⟨hk, s, ha, Bool.eq_not_of_ne (Ne.symm hne) ▸ hb⟩
  · rintro ⟨hk, s, ha, hb⟩
    refine ⟨⟨hk, ha.isComparable, Or.inr ⟨⟨s, ha⟩, _, hb⟩⟩, ?_⟩
    rw [ha.eq_iff hk.symm hb]
    exact (Bool.not_ne_self s).symm
  · rintro ⟨rfl, hc, hne⟩
    refine ⟨rfl, ?_⟩
    by_contra hnan
    exact hne ⟨rfl, hc, Or.inl ⟨rfl, Bool.eq_false_iff.mpr hnan⟩⟩
  · rintro ⟨rfl, hnan⟩
    refine ⟨rfl, isComparable_of_isNaN hnan, ?_⟩
    rintro ⟨-, -, ⟨-, h⟩ | ⟨⟨s, ha⟩, -⟩⟩
    · simp [h] at hnan
    · simp [ha.isNaN] at hnan

/-- The zeros of a kind compare equal, but the negative number nearest to them is less. -/
example : (float64 (.zero _)).compare (float64 (.negativeZero _)) false = .ok .eq ∧
    (float64 (.zero _)).compare (float64 (.ofCode _ true 1)) false = .ok .gt := by
  refine ⟨?_, ?_⟩ <;> decide

end Value

end ConstFold
