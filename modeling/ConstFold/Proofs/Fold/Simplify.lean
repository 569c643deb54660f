import ConstFold.Fold.Basic
import ConstFold.Proofs.Value.Arithmetic
import Mathlib.Data.List.Perm.Basic

/-!
# Simplifications are sound and complete

A simplification of `c op x` is *valid* if it gives what the machine computes for every operand `x`
that is no NaN. `simplify?` finds a valid simplification wherever there is one, and it is then the
right one for NaN operands too. No constant has two, so the order in which the laws of a constant
are tried does not matter.

## Main definitions

* `Simplification.ValidAt`, `Simplification.Valid`
* `Laws.arms` — the simplifications of an operator in the order in which they are tried, each with
  the law that allows it

## Main results

* `simplify?_sound` — what is found is right for every operand
* `simplify?_complete` — what is right is found, nothing else is, and every other simplification is
  wrong for some operand
-/

namespace ConstFold

namespace Simplification

/-- What a simplification makes of an operation on words. -/
def onWords {w : ℕ} : Simplification → BitVec w → BitVec w → BitVec w
  | annihilate, c, _ => c
  | identity, _, x => x
  | negate, _, x => -x

/-- What a simplification makes of an operation on floating-point data. -/
def onBinaries {f : Format} : Simplification → Binary f → Binary f → Binary f
  | annihilate, c, _ => c
  | identity, _, x => x
  | negate, _, x => x.neg

/-- What a simplification makes of an operation on constants. -/
def replacement? : Simplification → Value → Value → Option Value
  | annihilate, c, _ => some c
  | identity, _, x => some x
  | negate, _, x => x.neg?

/-- The simplification gives, up to NaNs, every result of `c op x`. Constants of one numeric kind
always have a result, so it is not for want of one that a simplification is valid there. -/
def ValidAt (s : Simplification) (op : ArithOp) (c x : Value) : Prop :=
  ∀ r, op.Computes c x r → ∃ y, s.replacement? c x = some y ∧ r.EqUpToNaN y

/-- The simplification is right for every operand of the kind of the constant that is no NaN. -/
def Valid (s : Simplification) (op : ArithOp) (c : Value) : Prop :=
  ∀ x, x.kind = c.kind → x.isNaN = false → s.ValidAt op c x

end Simplification

/-! ### The laws as a list -/

/-- The simplifications of an operator in the order in which they are tried, each with the law that
allows it. -/
def Laws.arms (laws : Laws) : ArithOp → List (Bool × Simplification)
  | .add => [(laws.additiveAnnihilator, .annihilate), (laws.additiveIdentity, .identity)]
  | .mul => [(laws.multiplicativeAnnihilator, .annihilate),
      (laws.multiplicativeIdentity, .identity), (laws.multiplicativeNegator, .negate)]

/-- The first simplification in a list whose law holds. -/
def firstArm (arms : List (Bool × Simplification)) : Option Simplification :=
  (arms.find? Prod.fst).map Prod.snd

theorem Laws.simplify?_eq_firstArm (laws : Laws) (op : ArithOp) :
    laws.simplify? op = firstArm (laws.arms op) := by
  cases op with
  | add =>
    rw [simplify?, arms, firstArm]
    cases laws.additiveAnnihilator <;> cases laws.additiveIdentity <;> rfl
  | mul =>
    rw [simplify?, arms, firstArm]
    cases laws.multiplicativeAnnihilator <;> cases laws.multiplicativeIdentity <;>
      cases laws.multiplicativeNegator <;> rfl

theorem mem_of_firstArm {arms : List (Bool × Simplification)} {s : Simplification}
    (h : firstArm arms = some s) : (true, s) ∈ arms := by
  obtain ⟨⟨b, t⟩, hfind, rfl⟩ := Option.map_eq_some_iff.mp h
  obtain rfl : b = true := List.find?_some hfind
  exact List.mem_of_find?_eq_some hfind

/-- Where no two laws hold, the first law that holds is the only one. -/
theorem firstArm_eq_some_iff {arms : List (Bool × Simplification)}
    (hone : ∀ s t, (true, s) ∈ arms → (true, t) ∈ arms → s = t) {s : Simplification} :
    firstArm arms = some s ↔ (true, s) ∈ arms := by
  refine ⟨mem_of_firstArm, fun hs => ?_⟩
  obtain ⟨⟨b, t⟩, hfind⟩ := Option.isSome_iff_exists.mp
    (List.find?_isSome (p := Prod.fst) |>.mpr ⟨(true, s), hs, rfl⟩)
  have ht : firstArm arms = some t := by rw [firstArm, hfind]; rfl
  rw [ht, hone t s (mem_of_firstArm ht) hs]

theorem firstArm_perm {arms arms' : List (Bool × Simplification)}
    (hone : ∀ s t, (true, s) ∈ arms → (true, t) ∈ arms → s = t) (hp : arms'.Perm arms) :
    firstArm arms' = firstArm arms := by
  ext s
  rw [firstArm_eq_some_iff hone, firstArm_eq_some_iff, hp.mem_iff]
  exact fun s t hs ht => hone s t (hp.mem_iff.mp hs) (hp.mem_iff.mp ht)

/-! ### Words -/

section

variable {w : ℕ} {c : BitVec w} {op : ArithOp} {s : Simplification}

private theorem one_ne_neg_one (hw : 1 < w) : 1#w ≠ -1#w := by
  intro h
  have hpow : 2 ^ 2 ≤ 2 ^ w := Nat.pow_le_pow_right Nat.two_pos hw
  have := congrArg BitVec.toNat h
  rw [BitVec.toNat_neg, BitVec.toNat_ofNat, Nat.mod_eq_of_lt (a := 1) (by omega),
    Nat.mod_eq_of_lt (a := 2 ^ w - 1) (by omega)] at this
  omega

private theorem zero_ne_one (hw : 1 < w) : 0#w ≠ 1#w := by
  intro h
  have hpow : 2 ^ 2 ≤ 2 ^ w := Nat.pow_le_pow_right Nat.two_pos hw
  have := congrArg BitVec.toNat h
  rw [BitVec.toNat_ofNat, BitVec.toNat_ofNat, Nat.zero_mod,
    Nat.mod_eq_of_lt (a := 1) (by omega)] at this
  exact Nat.zero_ne_one this

theorem mem_arms_ofWord_add :
    (true, s) ∈ (Laws.ofWord c).arms .add ↔ c = 0#w ∧ s = .identity := by
  simp [Laws.arms, Laws.ofWord]

theorem mem_arms_ofWord_mul :
    (true, s) ∈ (Laws.ofWord c).arms .mul ↔
      c = 0#w ∧ s = .annihilate ∨ c = 1#w ∧ s = .identity ∨ c = -1#w ∧ s = .negate := by
  simp [Laws.arms, Laws.ofWord]

theorem onWords_of_mem_arms (h : (true, s) ∈ (Laws.ofWord c).arms op) (x : BitVec w) :
    op.onWords c x = s.onWords c x := by
  cases op with
  | add =>
    obtain ⟨rfl, rfl⟩ := mem_arms_ofWord_add.mp h
    exact BitVec.zero_add x
  | mul =>
    rcases mem_arms_ofWord_mul.mp h with ⟨rfl, rfl⟩ | ⟨rfl, rfl⟩ | ⟨rfl, rfl⟩
    · exact BitVec.zero_mul
    · exact BitVec.one_mul x
    · simp [ArithOp.onWords, Simplification.onWords]

/-- Two operands decide whether a law of words holds: 0 and 1. -/
theorem mem_arms_of_onWords (hw : 1 < w) (h : ∀ x, op.onWords c x = s.onWords c x) :
    (true, s) ∈ (Laws.ofWord c).arms op := by
  have h0 := h 0#w
  have h1 := h 1#w
  cases op with
  | add =>
    rw [ArithOp.onWords, BitVec.add_zero] at h0
    rw [ArithOp.onWords] at h1
    cases s with
    | annihilate =>
      exact absurd (BitVec.add_right_eq_self.mp h1) (zero_ne_one hw).symm
    | identity => exact mem_arms_ofWord_add.mpr ⟨h0, rfl⟩
    | negate =>
      obtain rfl : c = 0#w := by simpa [Simplification.onWords] using h0
      rw [BitVec.zero_add] at h1
      exact absurd h1 (one_ne_neg_one hw)
  | mul =>
    rw [ArithOp.onWords, BitVec.mul_zero] at h0
    rw [ArithOp.onWords, BitVec.mul_one] at h1
    refine mem_arms_ofWord_mul.mpr ?_
    cases s with
    | annihilate => exact Or.inl ⟨h0.symm, rfl⟩
    | identity => exact Or.inr (Or.inl ⟨h1, rfl⟩)
    | negate => exact Or.inr (Or.inr ⟨h1, rfl⟩)

/-- No law that holds is hidden behind another one. -/
theorem simplify?_ofWord_of_mem_arms (hw : 1 < w) (h : (true, s) ∈ (Laws.ofWord c).arms op) :
    (Laws.ofWord c).simplify? op = some s := by
  have h0 := zero_ne_one hw
  have h1 := one_ne_neg_one hw
  have h2 : -1#w ≠ 0#w := fun h => h0 (by simpa using h.symm)
  cases op with
  | add =>
    obtain ⟨rfl, rfl⟩ := mem_arms_ofWord_add.mp h
    simp [Laws.simplify?, Laws.ofWord]
  | mul =>
    rcases mem_arms_ofWord_mul.mp h with ⟨rfl, rfl⟩ | ⟨rfl, rfl⟩ | ⟨rfl, rfl⟩
    · simp [Laws.simplify?, Laws.ofWord]
    · simp [Laws.simplify?, Laws.ofWord, h0.symm]
    · simp [Laws.simplify?, Laws.ofWord, h1.symm, h2]

end

/-! ### Floating-point data -/

section

open Binary

variable {f : Format} {c : Binary f} {op : ArithOp} {s : Simplification}

/-- A NaN operand makes the result a NaN, whichever operand it is. -/
theorem isNaN_onBinaries {x : Binary f} (h : c.isNaN = true ∨ x.isNaN = true) :
    (op.onBinaries c x).isNaN = true := by
  cases op with
  | add => rw [ArithOp.onBinaries, add_of_isNaN h, isNaN_nan]
  | mul => rw [ArithOp.onBinaries, mul_of_isNaN h, isNaN_nan]

theorem mem_arms_ofBinary_add :
    (true, s) ∈ (Laws.ofBinary c).arms .add ↔
      c.isNaN = true ∧ s = .annihilate ∨ c = negativeZero f ∧ s = .identity := by
  simp [Laws.arms, Laws.ofBinary, isNegativeZero_iff]

theorem mem_arms_ofBinary_mul :
    (true, s) ∈ (Laws.ofBinary c).arms .mul ↔
      c.isNaN = true ∧ s = .annihilate ∨ c = one f ∧ s = .identity ∨
        c = (one f).neg ∧ s = .negate := by
  simp [Laws.arms, Laws.ofBinary]

theorem onBinaries_of_mem_arms (h : (true, s) ∈ (Laws.ofBinary c).arms op) (x : Binary f) :
    (op.onBinaries c x).EqUpToNaN (s.onBinaries c x) := by
  cases op with
  | add =>
    rcases mem_arms_ofBinary_add.mp h with ⟨hc, rfl⟩ | ⟨rfl, rfl⟩
    · exact Or.inr ⟨isNaN_onBinaries (Or.inl hc), hc⟩
    · cases hx : x.isNaN
      · exact Or.inl (negativeZero_add hx)
      · exact Or.inr ⟨isNaN_onBinaries (Or.inr hx), hx⟩
  | mul =>
    rcases mem_arms_ofBinary_mul.mp h with ⟨hc, rfl⟩ | ⟨rfl, rfl⟩ | ⟨rfl, rfl⟩
    · exact Or.inr ⟨isNaN_onBinaries (Or.inl hc), hc⟩
    · cases hx : x.isNaN
      · exact Or.inl (one_mul hx)
      · exact Or.inr ⟨isNaN_onBinaries (Or.inr hx), hx⟩
    · cases hx : x.isNaN
      · exact Or.inl (neg_one_mul hx)
      · refine Or.inr ⟨isNaN_onBinaries (Or.inr hx), ?_⟩
        rw [Simplification.onBinaries, isNaN_neg, hx]

/-- Only a NaN can turn every operand into a NaN. -/
theorem isNaN_eq_false_of_eq (op : ArithOp) {x r : Binary f} (h : op.onBinaries c x = r)
    (hr : r.isNaN = false) :
    c.isNaN = false := by
  refine eq_false_of_ne_true fun hc => ?_
  rw [← h, isNaN_onBinaries (Or.inl hc)] at hr
  exact Bool.noConfusion hr

/-- The infinity against the sign of the constant shows that no sum is its own operand. -/
theorem isNaN_of_add_annihilate
    (h : ((c.add (infinity f (!c.negative))).EqUpToNaN c)) : c.isNaN = true := by
  by_contra hc
  have hc := eq_false_of_ne_true hc
  have hinf := isInfinite_infinity f (!c.negative)
  have hsum := h.eq hc
  rcases isInfinite_or_isFinite hc with hi | hfin
  · rw [add_of_opposite hi hinf (by simp [infinity])] at hsum
    rw [← hsum, isNaN_nan] at hc
    exact Bool.noConfusion hc
  · rw [add_of_isInfinite_right (Or.inl hfin) hinf] at hsum
    have hi := isInfinite_of_isFinite hfin
    rw [← hsum, hinf] at hi
    exact Bool.noConfusion hi

theorem mem_arms_of_add
    (h : ∀ x : Binary f, x.isNaN = false → (c.add x).EqUpToNaN (s.onBinaries c x)) :
    (true, s) ∈ (Laws.ofBinary c).arms .add := by
  refine mem_arms_ofBinary_add.mpr ?_
  cases s with
  | annihilate =>
    have hinf := isInfinite_infinity f (!c.negative)
    exact Or.inl ⟨isNaN_of_add_annihilate (h _ (isNaN_of_isInfinite hinf)), rfl⟩
  | identity =>
    have hzero := (h _ (isNaN_negativeZero f)).eq (isNaN_negativeZero f)
    have hc : c.isNaN = false := isNaN_eq_false_of_eq .add hzero (isNaN_negativeZero f)
    rw [Simplification.onBinaries, add_comm, negativeZero_add hc] at hzero
    exact Or.inr ⟨hzero, rfl⟩
  | negate =>
    -- the infinity with the sign of the constant absorbs it, and keeps its own sign
    have hinf := isInfinite_infinity f c.negative
    have hneg : (infinity f c.negative).neg.isNaN = false := by
      rw [isNaN_neg, isNaN_of_isInfinite hinf]
    have hsum := (h _ (isNaN_of_isInfinite hinf)).eq hneg
    have hc : c.isNaN = false := isNaN_eq_false_of_eq .add hsum hneg
    have habs : c.add (infinity f c.negative) = infinity f c.negative := by
      refine add_of_isInfinite_right ?_ hinf
      rcases isInfinite_or_isFinite hc with hi | hfin
      · exact Or.inr ⟨hi, by simp [infinity]⟩
      · exact Or.inl hfin
    exact absurd (hsum.symm.trans habs) (neg_ne_self _)

theorem mem_arms_of_mul
    (h : ∀ x : Binary f, x.isNaN = false → (c.mul x).EqUpToNaN (s.onBinaries c x)) :
    (true, s) ∈ (Laws.ofBinary c).arms .mul := by
  have hnegone : (one f).neg.isNaN = false := (isNaN_neg _).trans (isNaN_one f)
  refine mem_arms_ofBinary_mul.mpr ?_
  cases s with
  | annihilate =>
    refine Or.inl ⟨?_, rfl⟩
    by_contra hc
    have hc := eq_false_of_ne_true hc
    have hprod := (h _ hnegone).eq hc
    rw [mul_comm, neg_one_mul hc] at hprod
    exact neg_ne_self c hprod
  | identity =>
    have hprod := (h _ (isNaN_one f)).eq (isNaN_one f)
    have hc : c.isNaN = false := isNaN_eq_false_of_eq .mul hprod (isNaN_one f)
    rw [Simplification.onBinaries, mul_comm, one_mul hc] at hprod
    exact Or.inr (Or.inl ⟨hprod, rfl⟩)
  | negate =>
    have hprod := (h _ (isNaN_one f)).eq hnegone
    have hc : c.isNaN = false := isNaN_eq_false_of_eq .mul hprod hnegone
    rw [Simplification.onBinaries, mul_comm, one_mul hc] at hprod
    exact Or.inr (Or.inr ⟨hprod, rfl⟩)

theorem mem_arms_of_onBinaries
    (h : ∀ x : Binary f, x.isNaN = false → (op.onBinaries c x).EqUpToNaN (s.onBinaries c x)) :
    (true, s) ∈ (Laws.ofBinary c).arms op := by
  cases op with
  | add => exact mem_arms_of_add h
  | mul => exact mem_arms_of_mul h

theorem simplify?_ofBinary_of_mem_arms (h : (true, s) ∈ (Laws.ofBinary c).arms op) :
    (Laws.ofBinary c).simplify? op = some s := by
  have hone := isNaN_one f
  cases op with
  | add =>
    rcases mem_arms_ofBinary_add.mp h with ⟨hc, rfl⟩ | ⟨rfl, rfl⟩
    · simp [Laws.simplify?, Laws.ofBinary, hc]
    · simp [Laws.simplify?, Laws.ofBinary, isNaN_negativeZero, isNegativeZero_iff]
  | mul =>
    rcases mem_arms_ofBinary_mul.mp h with ⟨hc, rfl⟩ | ⟨rfl, rfl⟩ | ⟨rfl, rfl⟩
    · simp [Laws.simplify?, Laws.ofBinary, hc]
    · simp [Laws.simplify?, Laws.ofBinary, hone]
    · simp [Laws.simplify?, Laws.ofBinary, isNaN_neg, hone, neg_ne_self]

end

/-! ### Constants -/

namespace Simplification

variable {s : Simplification} {op : ArithOp}

/-- Validity speaks of every result, but one decides it. -/
theorem validAt_iff {c x : Value} (hk : x.kind = c.kind) (hnum : c.kind.isNumeric = true) :
    s.ValidAt op c x ↔
      ∃ r y, op.eval? c x = some r ∧ s.replacement? c x = some y ∧ r.EqUpToNaN y := by
  constructor
  · intro h
    obtain ⟨r, hev, hr⟩ := op.exists_computes hk hnum
    obtain ⟨y, hy, heq⟩ := h r hr
    exact ⟨r, y, hev, hy, heq⟩
  · rintro ⟨r, y, hev, hy, heq⟩ r' hr'
    obtain ⟨t, ht, heq'⟩ := hr'.eqUpToNaN
    obtain rfl : r = t := Option.some.inj (hev.symm.trans ht)
    exact ⟨y, hy, heq'.trans heq⟩

theorem validAt_int32 {c x : BitVec 32} :
    s.ValidAt op (.int32 c) (.int32 x) ↔ op.onWords c x = s.onWords c x := by
  rw [validAt_iff (c := .int32 c) (x := .int32 x) rfl rfl, ← Value.eqUpToNaN_int32]
  cases s <;> simp [ArithOp.eval?, replacement?, onWords, Value.neg?]

theorem validAt_int64 {c x : BitVec 64} :
    s.ValidAt op (.int64 c) (.int64 x) ↔ op.onWords c x = s.onWords c x := by
  rw [validAt_iff (c := .int64 c) (x := .int64 x) rfl rfl, ← Value.eqUpToNaN_int64]
  cases s <;> simp [ArithOp.eval?, replacement?, onWords, Value.neg?]

theorem validAt_float32 {c x : Binary .binary32} :
    s.ValidAt op (.float32 c) (.float32 x) ↔ (op.onBinaries c x).EqUpToNaN (s.onBinaries c x) := by
  rw [validAt_iff (c := .float32 c) (x := .float32 x) rfl rfl, ← Value.eqUpToNaN_float32]
  cases s <;> simp [ArithOp.eval?, replacement?, onBinaries, Value.neg?]

theorem validAt_float64 {c x : Binary .binary64} :
    s.ValidAt op (.float64 c) (.float64 x) ↔ (op.onBinaries c x).EqUpToNaN (s.onBinaries c x) := by
  rw [validAt_iff (c := .float64 c) (x := .float64 x) rfl rfl, ← Value.eqUpToNaN_float64]
  cases s <;> simp [ArithOp.eval?, replacement?, onBinaries, Value.neg?]

/-- A law that holds makes its simplification right for every operand, NaNs included. -/
theorem validAt_of_mem_arms {c x : Value} {laws : Laws} (hl : c.laws? = some laws)
    (hk : x.kind = c.kind) (h : (true, s) ∈ laws.arms op) : s.ValidAt op c x := by
  cases hk using Value.cases_of_kind_eq with
  | int32 c x =>
    obtain rfl := Option.some.inj hl
    exact validAt_int32.mpr (onWords_of_mem_arms h x)
  | int64 c x =>
    obtain rfl := Option.some.inj hl
    exact validAt_int64.mpr (onWords_of_mem_arms h x)
  | float32 c x =>
    obtain rfl := Option.some.inj hl
    exact validAt_float32.mpr (onBinaries_of_mem_arms h x)
  | float64 c x =>
    obtain rfl := Option.some.inj hl
    exact validAt_float64.mpr (onBinaries_of_mem_arms h x)
  | addr _ _ | cond _ _ | memory _ _ => simp [Value.laws?] at hl

/-- A simplification that is right has a law that holds. -/
theorem mem_arms_of_valid {c : Value} {laws : Laws} (hl : c.laws? = some laws)
    (h : s.Valid op c) : (true, s) ∈ laws.arms op := by
  cases c with
  | int32 c =>
    obtain rfl := Option.some.inj hl
    exact mem_arms_of_onWords (by decide) fun x => validAt_int32.mp (h (.int32 x) rfl rfl)
  | int64 c =>
    obtain rfl := Option.some.inj hl
    exact mem_arms_of_onWords (by decide) fun x => validAt_int64.mp (h (.int64 x) rfl rfl)
  | float32 c =>
    obtain rfl := Option.some.inj hl
    exact mem_arms_of_onBinaries fun x hx => validAt_float32.mp (h (.float32 x) rfl hx)
  | float64 c =>
    obtain rfl := Option.some.inj hl
    exact mem_arms_of_onBinaries fun x hx => validAt_float64.mp (h (.float64 x) rfl hx)
  | addr _ | cond _ | memory _ => simp [Value.laws?] at hl

/-- A law that holds is the one that is found. -/
theorem simplify?_of_mem_arms {c : Value} {laws : Laws} (hl : c.laws? = some laws)
    (h : (true, s) ∈ laws.arms op) : laws.simplify? op = some s := by
  cases c with
  | int32 c | int64 c =>
    obtain rfl := Option.some.inj hl
    exact simplify?_ofWord_of_mem_arms (by decide) h
  | float32 c | float64 c =>
    obtain rfl := Option.some.inj hl
    exact simplify?_ofBinary_of_mem_arms h
  | addr _ | cond _ | memory _ => simp [Value.laws?] at hl

end Simplification

theorem Value.isNumeric_of_laws? {c : Value} {laws : Laws} (h : c.laws? = some laws) :
    c.kind.isNumeric = true := by
  cases c <;> first | rfl | simp [laws?] at h

theorem Value.exists_laws? {c : Value} (h : c.kind.isNumeric = true) :
    ∃ laws, c.laws? = some laws := by
  cases c <;> first | exact ⟨_, rfl⟩ | exact absurd h Bool.false_ne_true

/-- **Simplifications are sound.** Only a numeric constant has one, and for every operand of its
kind the operation has a result, and every result is what the simplification gives. -/
theorem simplify?_sound {op : ArithOp} {c : Value} {s : Simplification}
    (h : simplify? op c = some s) :
    c.kind.isNumeric = true ∧ ∀ x, x.kind = c.kind →
      (∃ r, op.eval? c x = some r ∧ op.Computes c x r) ∧ s.ValidAt op c x := by
  obtain ⟨laws, hl, hs⟩ := Option.bind_eq_some_iff.mp h
  have hnum := Value.isNumeric_of_laws? hl
  refine ⟨hnum, fun x hk => ⟨op.exists_computes hk hnum, ?_⟩⟩
  rw [laws.simplify?_eq_firstArm] at hs
  exact Simplification.validAt_of_mem_arms hl hk (mem_of_firstArm hs)

/-- Multiplying the negative zero by -1 gives the positive one. -/
theorem simplify?_sound_negate :
    simplify? .mul (.float32 (Binary.one _).neg) = some .negate ∧
      Simplification.negate.ValidAt .mul (.float32 (Binary.one _).neg)
        (.float32 (.negativeZero _)) := by
  have h : simplify? .mul (.float32 (Binary.one _).neg) = some .negate := by decide
  exact ⟨h, ((simplify?_sound h).2 (.float32 (.negativeZero _)) rfl).2⟩

/-- **Simplifications are complete.** What is right for every operand that is no NaN is found, at
most one simplification is right, the laws may be tried in any order, and where nothing is found
every simplification has an operand for which it is wrong. -/
theorem simplify?_complete (op : ArithOp) {c : Value} (hc : c.kind.isNumeric = true) :
    (∀ s : Simplification, s.Valid op c → simplify? op c = some s) ∧
      (∀ s t : Simplification, s.Valid op c → t.Valid op c → s = t) ∧
      (∃ laws, c.laws? = some laws ∧
        ∀ arms, arms.Perm (laws.arms op) → firstArm arms = simplify? op c) ∧
      (simplify? op c = none → ∀ s : Simplification,
        ∃ x, x.kind = c.kind ∧ x.isNaN = false ∧ ¬s.ValidAt op c x) := by
  obtain ⟨laws, hl⟩ := Value.exists_laws? hc
  have hsimp : simplify? op c = laws.simplify? op := by rw [simplify?, hl]; rfl
  have hfound : ∀ s : Simplification, s.Valid op c → simplify? op c = some s := fun s hs => by
    rw [hsimp]
    exact Simplification.simplify?_of_mem_arms hl (Simplification.mem_arms_of_valid hl hs)
  refine ⟨hfound, fun s t hs ht => ?_, ⟨laws, hl, fun arms hp => ?_⟩, fun hnone s => ?_⟩
  · exact Option.some.inj ((hfound s hs).symm.trans (hfound t ht))
  · rw [hsimp, laws.simplify?_eq_firstArm]
    refine firstArm_perm (fun s t hs ht => ?_) hp
    exact Option.some.inj ((Simplification.simplify?_of_mem_arms hl hs).symm.trans
      (Simplification.simplify?_of_mem_arms hl ht))
  · by_contra hall
    push Not at hall
    have hs := hfound s fun x hk hx => hall x hk hx
    simp [hnone] at hs

/-- An addition of the positive zero has to be kept. -/
theorem simplify?_complete_zero :
    simplify? .add (.float64 (.zero _)) = none ∧ ∀ s : Simplification, ∃ x : Value,
      x.kind = .float64 ∧ x.isNaN = false ∧ ¬s.ValidAt .add (.float64 (.zero _)) x :=
  ⟨by decide, (simplify?_complete .add (c := .float64 (.zero _)) rfl).2.2.2 (by decide)⟩

end ConstFold
