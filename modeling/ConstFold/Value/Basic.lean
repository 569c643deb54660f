import ConstFold.Binary.Basic
import ConstFold.Condition.Basic
import ConstFold.Kind

/-!
# Constants

A constant holds one payload and knows its kind, so that a payload cannot be read as another kind:
the bits of a constant are never reinterpreted. The payload of each kind is a type of its own
(`Kind.Payload`), and typed access is by kind.

## Main definitions

* `Addr`, `Memory`: the payloads that are no numbers and no conditions.
* `Value`: a constant, with `Value.kind`.
* `Value.zero`: the zero of a kind.
* `Value.get?`, `Value.tryGet`, `Value.payload`: typed access, by the three ways to fail.
* `Value.ofPayload`: the constant that holds a payload.
* `Value.isNonzero`, `Value.isNonzeroAs`: the test against zero.
-/

namespace ConstFold

/-- A machine address. Only equality has a meaning across the address space; addresses are ordered
by their numbers so that constant addresses can be compared at all. -/
structure Addr where
  raw : BitVec 64
  deriving DecidableEq

namespace Addr

def null : Addr :=
  ⟨0#64⟩

def isNull (a : Addr) : Bool :=
  a.raw == 0#64

/-- Addresses are ordered by their numbers. -/
instance : Ord Addr where
  compare a b := compare a.raw.toNat b.raw.toNat

end Addr

/-- A region of memory that can be a constant. Mutable regions cannot, so there is one. -/
inductive Memory where
  /-- The region of immutable values. -/
  | constant
  deriving DecidableEq

def Memory.tag : Memory → String
  | constant => "Constant"

/-- The payloads of a kind; `void` and `tuple` have none. -/
def Kind.Payload : Kind → Type
  | .int32 => BitVec 32
  | .int64 => BitVec 64
  | .float32 => Binary .binary32
  | .float64 => Binary .binary64
  | .addr => Addr
  | .cond => Condition
  | .memory => Memory
  | .void | .tuple => Empty

/-- A constant: a payload, under the constructor of its kind. A kind without payload has no
constants. -/
inductive Value where
  | int32 (v : BitVec 32)
  | int64 (v : BitVec 64)
  | float32 (v : Binary .binary32)
  | float64 (v : Binary .binary64)
  | addr (a : Addr)
  | cond (c : Condition)
  | memory (m : Memory)
  deriving DecidableEq

namespace Value

def kind : Value → Kind
  | int32 _ => .int32
  | int64 _ => .int64
  | float32 _ => .float32
  | float64 _ => .float64
  | addr _ => .addr
  | cond _ => .cond
  | memory _ => .memory

/-- The zero of a kind: 0, positive zero, null, `eq` or the constant region. -/
def zero : Kind → Except KindError Value
  | .int32 => .ok (int32 0#32)
  | .int64 => .ok (int64 0#64)
  | .float32 => .ok (float32 (.zero _))
  | .float64 => .ok (float64 (.zero _))
  | .addr => .ok (addr .null)
  | .cond => .ok (cond .eq)
  | .memory => .ok (memory .constant)
  | k@.void | k@.tuple => .error (.noPayload k)

/-! ### Typed access -/

def ofPayload : (k : Kind) → k.Payload → Value
  | .int32, v => int32 v
  | .int64, v => int64 v
  | .float32, v => float32 v
  | .float64, v => float64 v
  | .addr, a => addr a
  | .cond, c => cond c
  | .memory, m => memory m
  | .void, e | .tuple, e => nomatch e

/-- A constant holds a payload of its kind. -/
theorem exists_eq_ofPayload {v : Value} {k : Kind} (h : v.kind = k) :
    ∃ p : k.Payload, v = ofPayload k p := by
  subst h
  cases v <;> exact ⟨_, rfl⟩

/-- What is to be shown of two constants of one kind, kind by kind. -/
@[elab_as_elim]
theorem cases_of_kind_eq {motive : (a b : Value) → b.kind = a.kind → Prop}
    (int32 : ∀ a b, motive (.int32 a) (.int32 b) rfl)
    (int64 : ∀ a b, motive (.int64 a) (.int64 b) rfl)
    (float32 : ∀ a b, motive (.float32 a) (.float32 b) rfl)
    (float64 : ∀ a b, motive (.float64 a) (.float64 b) rfl)
    (addr : ∀ a b, motive (.addr a) (.addr b) rfl)
    (cond : ∀ a b, motive (.cond a) (.cond b) rfl)
    (memory : ∀ a b, motive (.memory a) (.memory b) rfl)
    {a b : Value} (hk : b.kind = a.kind) : motive a b hk := by
  obtain ⟨p, rfl⟩ := exists_eq_ofPayload hk
  cases a with
  | int32 a => exact int32 a p
  | int64 a => exact int64 a p
  | float32 a => exact float32 a p
  | float64 a => exact float64 a p
  | addr a => exact addr a p
  | cond a => exact cond a p
  | memory a => exact memory a p

/-- The payload of a constant of kind `k`, or nothing if the constant has another kind. -/
def get? : (k : Kind) → Value → Option k.Payload
  | .int32, int32 v => some v
  | .int64, int64 v => some v
  | .float32, float32 v => some v
  | .float64, float64 v => some v
  | .addr, addr a => some a
  | .cond, cond c => some c
  | .memory, memory m => some m
  | _, _ => none

/-- The payload of a constant of kind `k`, or the mismatch of kinds. -/
def tryGet (k : Kind) (v : Value) : Except KindError k.Payload :=
  match v.get? k with
  | some p => .ok p
  | none => .error (.kindMismatch k v.kind)

/-- The payload of a constant that the caller promises to be of kind `k`. -/
def payload (k : Kind) (v : Value) : Except Misuse k.Payload :=
  match v.tryGet k with
  | .ok p => .ok p
  | .error _ => .error (.payloadAccess k v.kind)

/-! ### The test against zero -/

/-- Whether a constant is not zero: both float zeros are zero, and so is the condition `eq`; memory
never is. An address counts as nonzero exactly if it *is* null, against the polarity of all other
kinds; consumers depend on that. -/
def isNonzero : Value → Bool
  | int32 v => v != 0#32
  | int64 v => v != 0#64
  | float32 v => !v.isZero
  | float64 v => !v.isZero
  | addr a => a.isNull
  | cond c => c != .eq
  | memory _ => true

/-- The promise that a constant has the kind its caller tracks beside it. -/
def checkKind (k : Kind) (v : Value) : Except Misuse Unit :=
  if v.kind = k then .ok () else .error (.trackedKind k v.kind)

/-- `isNonzero` of a constant of the kind that the caller tracks; true for a kind without
payload. -/
def isNonzeroAs (k : Kind) (v : Value) : Except Misuse Bool :=
  if k.hasPayload then do
    v.checkKind k
    return v.isNonzero
  else return true

end Value

end ConstFold
