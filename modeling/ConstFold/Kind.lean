/-!
# Kinds of values

Every constant has a kind, which fixes its machine representation. The nine kinds are listed in
the order of their ordinals, so that the broad classes (`isConcrete`, `isStackType`, …) are
initial segments of the list.

An operation on constants fails for one of four reasons, all about kinds; they are the values of
`KindError`. Beside them stand the three ways in which a caller breaks a promise (`Misuse`): such
a call has no answer that the caller could act on, only a message.

## Main definitions

* `Kind`: the nine kinds, with `Kind.ordinal`, the names used in dumps and the order of kinds.
* `Kind.slots`: the operand-stack slots a value of the kind takes.
* `Kind.hasPayload`: whether a constant of the kind exists.
* `KindError`, with its tag, its message and its debug text; `Misuse`, with its message.

## Implementation notes

The `name` of a kind is what diagnostics show, and its `tag` is its spelling in debug texts and in
cache trees; `ofName?` and `ofTag?` look the two up. The other types with a fixed list of values
follow suit.

Slots follow the operand-stack model of the host machine, not the hardware: an address takes one
slot even where it fills two machine words.
-/

namespace ConstFold

/-- The machine representation of a value. -/
inductive Kind where
  /-- No value. -/
  | void
  /-- A 32-bit integer. -/
  | int32
  /-- A 64-bit integer. -/
  | int64
  /-- A binary floating-point number of 32 bits. -/
  | float32
  /-- A binary floating-point number of 64 bits. -/
  | float64
  /-- A machine address. -/
  | addr
  /-- The outcome of a comparison. -/
  | cond
  /-- All of memory, as it is threaded through data flow. -/
  | memory
  /-- A tuple of other values. -/
  | tuple
  deriving DecidableEq

namespace Kind

/-- All kinds, in the order of their ordinals. -/
def all : List Kind :=
  [void, int32, int64, float32, float64, addr, cond, memory, tuple]

def ordinal : Kind → Nat
  | void => 0
  | int32 => 1
  | int64 => 2
  | float32 => 3
  | float64 => 4
  | addr => 5
  | cond => 6
  | memory => 7
  | tuple => 8

theorem all_getElem?_ordinal (k : Kind) : all[k.ordinal]? = some k := by
  cases k <;> rfl

theorem ordinal_injective {a b : Kind} (h : a.ordinal = b.ordinal) : a = b := by
  have ha := all_getElem?_ordinal a
  rw [h, all_getElem?_ordinal] at ha
  exact (Option.some.inj ha).symm

/-- Kinds are ordered by their ordinals. -/
instance : Ord Kind where
  compare a b := compare a.ordinal b.ordinal

/-! ### Names -/

def name : Kind → String
  | void => "void"
  | int32 => "int"
  | int64 => "long"
  | float32 => "float"
  | float64 => "double"
  | addr => "addr"
  | cond => "cond"
  | memory => "memory"
  | tuple => "tuple"

/-- The one-letter name of a kind in dumps. -/
def shortName : Kind → Char
  | void => 'v'
  | int32 => 'i'
  | int64 => 'l'
  | float32 => 'f'
  | float64 => 'd'
  | addr => 'a'
  | cond => 'c'
  | memory => 'm'
  | tuple => 't'

def tag : Kind → String
  | void => "Void"
  | int32 => "Int32"
  | int64 => "Int64"
  | float32 => "Float32"
  | float64 => "Float64"
  | addr => "Addr"
  | cond => "Cond"
  | memory => "Memory"
  | tuple => "Tuple"

def ofName? (s : String) : Option Kind :=
  all.find? fun k => k.name == s

def ofTag? (s : String) : Option Kind :=
  all.find? fun k => k.tag == s

theorem ofTag?_tag (k : Kind) : ofTag? k.tag = some k := by
  cases k <;> decide

/-! ### Classes -/

/-- Has a value at run time: everything up to `cond`. -/
def isConcrete (k : Kind) : Bool :=
  k.ordinal ≤ cond.ordinal

/-- Is a type of the operand stack: everything up to `addr`. -/
def isStackType (k : Kind) : Bool :=
  k.ordinal ≤ addr.ordinal

/-- Can live in a register or in memory. -/
def isRegisterOrMemory (k : Kind) : Bool :=
  k != void && k.ordinal ≤ memory.ordinal

/-- Can be stored to memory and loaded from it. -/
def isStorable (k : Kind) : Bool :=
  k != void && k.ordinal ≤ addr.ordinal

def isVoid (k : Kind) : Bool :=
  k == void

def isInteger : Kind → Bool
  | int32 | int64 => true
  | _ => false

def isFloating : Kind → Bool
  | float32 | float64 => true
  | _ => false

def isNumeric (k : Kind) : Bool :=
  k.isInteger || k.isFloating

def isMemory (k : Kind) : Bool :=
  k == memory

def isWord : Kind → Bool
  | int32 | float32 | addr => true
  | _ => false

def isDoubleword : Kind → Bool
  | int64 | float64 => true
  | _ => false

/-- The operand-stack slots that a value takes, where it can be on the operand stack at all. -/
def slots (k : Kind) : Option Nat :=
  if k.isWord then some 1
  else if k.isDoubleword then some 2
  else none

/-- Whether a constant of this kind carries a payload: `void` and `tuple` have none to store. -/
def hasPayload : Kind → Bool
  | void | tuple => false
  | _ => true

end Kind

/-! ### Errors -/

/-- Why a kind-checked operation has no result. -/
inductive KindError where
  /-- A payload was read as a kind other than the one it was built with. -/
  | kindMismatch (expected found : Kind)
  /-- The kind has no payload. -/
  | noPayload (kind : Kind)
  /-- The kind has no ordering. -/
  | notComparable (kind : Kind)
  /-- The kind is not one of the four numeric kinds. -/
  | notNumeric (kind : Kind)
  deriving DecidableEq

namespace KindError

def tag : KindError → String
  | kindMismatch .. => "KindMismatch"
  | noPayload _ => "NoPayload"
  | notComparable _ => "NotComparable"
  | notNumeric _ => "NotNumeric"

/-- The sentence that reports an error. -/
def message : KindError → String
  | kindMismatch expected found => s!"expected a {expected.name} value, found {found.name}"
  | noPayload kind => s!"{kind.name} values carry no payload"
  | notComparable kind => s!"{kind.name} values cannot be compared"
  | notNumeric kind => s!"{kind.name} is not a numeric kind"

/-- The debug text: the tag and the tags of the kinds. -/
def dump : KindError → String
  | kindMismatch expected found =>
    "KindMismatch \x7b expected: " ++ expected.tag ++ ", found: " ++ found.tag ++ " \x7d"
  | noPayload kind => s!"NoPayload({kind.tag})"
  | notComparable kind => s!"NotComparable({kind.tag})"
  | notNumeric kind => s!"NotNumeric({kind.tag})"

end KindError

/-- A call that breaks the promise its caller makes. -/
inductive Misuse where
  /-- The payload was demanded at a kind the constant does not have. -/
  | payloadAccess (expected found : Kind)
  /-- The kind that the caller tracks beside a constant is not the constant's kind. -/
  | trackedKind (expected found : Kind)
  /-- The NaN of an integer kind was demanded. -/
  | integerNaN (kind : Kind)
  deriving DecidableEq

/-- The message of a misuse; where kinds disagree it ends with that error's message. -/
def Misuse.message : Misuse → String
  | payloadAccess expected found =>
    "payload access: " ++ (KindError.kindMismatch expected found).message
  | trackedKind expected found =>
    "value accessed with caller-tracked kind: " ++ (KindError.kindMismatch expected found).message
  | integerNaN kind => s!"no {kind.name} NaN: integer kinds have no NaN"

end ConstFold
