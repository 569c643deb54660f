import ConstFold.Proofs.Binary.Arithmetic
import ConstFold.Value.Identity
import ConstFold.Value.Laws

/-!
# What the machine computes

`op.Computes a b r` says that `r` is a result of `a op b` on two constants of the same numeric kind.
An integer result is the exact one, wrapped around at the width of the kind; a float result follows
the rules of the standard. `ArithOp.eval?` computes such a result, and two results of one
operation differ at most in which NaN they are.

## Main definitions

* `ArithOp.Computes`
* `Value.EqUpToNaN` — bitwise identity, except that two NaNs of a kind count as identical

## Main results

* `exists_computes` — an operation on constants of one numeric kind has a result
* `Computes.eqUpToNaN` — and only one, up to NaNs
-/

namespace ConstFold

/-- The same kind and bits, or two NaNs of the same kind. -/
def Value.EqUpToNaN (a b : Value) : Prop :=
  a.eqBits b = true ∨ a.kind = b.kind ∧ a.isNaN = true ∧ b.isNaN = true

namespace ArithOp

/-- The operator on integers, unbounded. -/
def onInts : ArithOp → ℤ → ℤ → ℤ
  | add, a, b => a + b
  | mul, a, b => a * b

/-- The exact result, wrapped around at the width of the words. -/
def IsWrapped {w : ℕ} (op : ArithOp) (a b r : BitVec w) : Prop :=
  r.toInt = (op.onInts a.toInt b.toInt).bmod (2 ^ w)

/-- The rules of the standard for an operator. -/
def IsResult {f : Format} : ArithOp → Binary f → Binary f → Binary f → Prop
  | add => Binary.IsSum
  | mul => Binary.IsProduct

/-- `r` is a result of `a op b`, both being constants of the same numeric kind. -/
inductive Computes (op : ArithOp) : Value → Value → Value → Prop
  | int32 {a b r} (h : op.IsWrapped a b r) : Computes op (.int32 a) (.int32 b) (.int32 r)
  | int64 {a b r} (h : op.IsWrapped a b r) : Computes op (.int64 a) (.int64 b) (.int64 r)
  | float32 {a b r} (h : op.IsResult a b r) : Computes op (.float32 a) (.float32 b) (.float32 r)
  | float64 {a b r} (h : op.IsResult a b r) : Computes op (.float64 a) (.float64 b) (.float64 r)

/-! ### Words and data -/

theorem isWrapped_iff {w : ℕ} {op : ArithOp} {a b r : BitVec w} :
    op.IsWrapped a b r ↔ r = op.onWords a b := by
  cases op with
  | add => rw [IsWrapped, onInts, onWords, ← BitVec.toInt_add, BitVec.toInt_inj]
  | mul => rw [IsWrapped, onInts, onWords, ← BitVec.toInt_mul, BitVec.toInt_inj]

theorem isResult_onBinaries {f : Format} (op : ArithOp) (a b : Binary f) :
    op.IsResult a b (op.onBinaries a b) := by
  cases op with
  | add => exact Binary.isSum_add a b
  | mul => exact Binary.isProduct_mul a b

theorem IsResult.eqUpToNaN {f : Format} {op : ArithOp} {a b r : Binary f}
    (h : op.IsResult a b r) : r.EqUpToNaN (op.onBinaries a b) := by
  cases op with
  | add => exact Binary.IsSum.eqUpToNaN h
  | mul => exact Binary.IsProduct.eqUpToNaN h

end ArithOp

/-! ### Constants -/

namespace Value

theorem EqUpToNaN.trans {a b c : Value} (h : a.EqUpToNaN b) (h' : b.EqUpToNaN c) :
    a.EqUpToNaN c := by
  rcases h with h | ⟨hk, ha, hb⟩
  · rwa [eqBits_iff_eq.mp h]
  · rcases h' with h' | ⟨hk', _, hc⟩
    · obtain rfl := eqBits_iff_eq.mp h'
      exact Or.inr ⟨hk, ha, hb⟩
    · exact Or.inr ⟨hk.trans hk', ha, hc⟩

theorem eqUpToNaN_int32 {a b : BitVec 32} : (int32 a).EqUpToNaN (int32 b) ↔ a = b := by
  simp [EqUpToNaN, eqBits, isNaN]

theorem eqUpToNaN_int64 {a b : BitVec 64} : (int64 a).EqUpToNaN (int64 b) ↔ a = b := by
  simp [EqUpToNaN, eqBits, isNaN]

theorem eqUpToNaN_float32 {a b : Binary .binary32} :
    (float32 a).EqUpToNaN (float32 b) ↔ a.EqUpToNaN b := by
  simp [EqUpToNaN, Binary.EqUpToNaN, eqBits_iff_eq, isNaN, kind]

theorem eqUpToNaN_float64 {a b : Binary .binary64} :
    (float64 a).EqUpToNaN (float64 b) ↔ a.EqUpToNaN b := by
  simp [EqUpToNaN, Binary.EqUpToNaN, eqBits_iff_eq, isNaN, kind]

end Value

namespace ArithOp

/-- Constants of one numeric kind have a result, and `eval?` finds it. -/
theorem exists_computes (op : ArithOp) {a b : Value} (hk : b.kind = a.kind)
    (hnum : a.kind.isNumeric = true) : ∃ r, op.eval? a b = some r ∧ op.Computes a b r := by
  cases hk using Value.cases_of_kind_eq with
  | int32 a b => exact ⟨_, rfl, .int32 (isWrapped_iff.mpr rfl)⟩
  | int64 a b => exact ⟨_, rfl, .int64 (isWrapped_iff.mpr rfl)⟩
  | float32 a b => exact ⟨_, rfl, .float32 (isResult_onBinaries op a b)⟩
  | float64 a b => exact ⟨_, rfl, .float64 (isResult_onBinaries op a b)⟩
  | addr _ _ | cond _ _ | memory _ _ => exact absurd hnum Bool.false_ne_true

/-- Every result is the one that `eval?` finds, up to the choice of a NaN. -/
theorem Computes.eqUpToNaN {op : ArithOp} {a b r : Value} (h : op.Computes a b r) :
    ∃ s, op.eval? a b = some s ∧ r.EqUpToNaN s := by
  cases h with
  | int32 h => exact ⟨_, rfl, Value.eqUpToNaN_int32.mpr (isWrapped_iff.mp h)⟩
  | int64 h => exact ⟨_, rfl, Value.eqUpToNaN_int64.mpr (isWrapped_iff.mp h)⟩
  | float32 h => exact ⟨_, rfl, Value.eqUpToNaN_float32.mpr h.eqUpToNaN⟩
  | float64 h => exact ⟨_, rfl, Value.eqUpToNaN_float64.mpr h.eqUpToNaN⟩

end ArithOp

end ConstFold
