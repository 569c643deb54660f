import ConstFold.Kind

/-!
# Kinds of types, and frames

The type system of the host machine tells fourteen kinds of types apart; a constant only needs
the machine representation, so each of them maps to one `Kind`. The types that are no primitives
are references, and every reference is held as an address.

A frame lays values out one after another in operand-stack slots. Types are given by their
ordinals, as a method descriptor lists them; an ordinal that names no type, and a type without
slots, take no room but keep their place in the list of steps.

## Main definitions

* `TypeKind`: the fourteen kinds of types, with `TypeKind.ordinal` and `TypeKind.ofOrdinal?`.
* `TypeKind.kind`: the machine representation.
* `Frame.Step`: where one type of the list is laid out.
* `Frame.layout`: the frame of a list of ordinals.
-/

namespace ConstFold

/-- The kind of a type of the host machine. -/
inductive TypeKind where
  | void
  | boolean
  /-- An unsigned byte, for internal use. -/
  | ubyte
  | byte
  | char
  | short
  | int
  | long
  | float
  | double
  /-- An instance of a class. -/
  | object
  /-- An internal object without a class. -/
  | special
  | array
  | interface
  deriving DecidableEq

namespace TypeKind

/-- All kinds of types, in the order of their ordinals. -/
def all : List TypeKind :=
  [void, boolean, ubyte, byte, char, short, int, long, float, double, object, special, array,
    interface]

def ordinal : TypeKind → Nat
  | void => 0
  | boolean => 1
  | ubyte => 2
  | byte => 3
  | char => 4
  | short => 5
  | int => 6
  | long => 7
  | float => 8
  | double => 9
  | object => 10
  | special => 11
  | array => 12
  | interface => 13

/-- The kind of types at a position, if there is one. -/
def ofOrdinal? (n : Nat) : Option TypeKind :=
  all[n]?

theorem ofOrdinal?_ordinal (t : TypeKind) : ofOrdinal? t.ordinal = some t := by
  cases t <;> rfl

def name : TypeKind → String
  | void => "void"
  | boolean => "boolean"
  | ubyte => "ubyte"
  | byte => "byte"
  | char => "char"
  | short => "short"
  | int => "int"
  | long => "long"
  | float => "float"
  | double => "double"
  | object => "object"
  | special => "special"
  | array => "array"
  | interface => "interface"

def tag : TypeKind → String
  | void => "Void"
  | boolean => "Boolean"
  | ubyte => "UByte"
  | byte => "Byte"
  | char => "Char"
  | short => "Short"
  | int => "Int"
  | long => "Long"
  | float => "Float"
  | double => "Double"
  | object => "Object"
  | special => "Special"
  | array => "Array"
  | interface => "Interface"

def ofTag? (s : String) : Option TypeKind :=
  all.find? fun t => t.tag == s

/-- The machine representation: the short integers are widened to `int32`, references are
addresses. -/
def kind : TypeKind → Kind
  | void => .void
  | boolean | ubyte | byte | char | short | int => .int32
  | long => .int64
  | float => .float32
  | double => .float64
  | object | special | array | interface => .addr

/-- Is no reference: everything up to `double`. -/
def isPrimitive (t : TypeKind) : Bool :=
  t.ordinal ≤ double.ordinal

def isReference (t : TypeKind) : Bool :=
  !t.isPrimitive

def slots (t : TypeKind) : Option Nat :=
  t.kind.slots

end TypeKind

/-! ### Frames -/

namespace Frame

/-- The place of one type in a frame. -/
structure Step where
  /-- The slots that are taken before it. -/
  offset : Nat
  /-- Its machine representation, if the ordinal names a type. -/
  kind : Option Kind
  /-- The slots it takes, if the ordinal names a type that has slots. -/
  slots : Option Nat
  deriving DecidableEq

/-- The first slot after a step. -/
def Step.stop (s : Step) : Nat :=
  s.offset + s.slots.getD 0

/-- The step of the type with a given ordinal, at a given offset. -/
def Step.ofOrdinal (offset ordinal : Nat) : Step :=
  let type := TypeKind.ofOrdinal? ordinal
  { offset, kind := type.map TypeKind.kind, slots := type.bind TypeKind.slots }

end Frame

/-- A list of types laid out in slots. -/
structure Frame where
  /-- The steps, one for each type, in order. -/
  steps : List Frame.Step
  /-- The first slot after the last step. -/
  total : Nat
  deriving DecidableEq

namespace Frame

/-- Lays out types from a given offset on. -/
def layoutFrom (offset : Nat) : List Nat → Frame
  | [] => { steps := [], total := offset }
  | ordinal :: rest =>
    let step := Step.ofOrdinal offset ordinal
    let tail := layoutFrom step.stop rest
    { steps := step :: tail.steps, total := tail.total }

def layout (ordinals : List Nat) : Frame :=
  layoutFrom 0 ordinals

end Frame

end ConstFold
