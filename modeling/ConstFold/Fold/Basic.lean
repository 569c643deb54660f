import ConstFold.Value.Convert
import ConstFold.Value.Laws
import ConstFold.Value.Text

/-!
# Folding

The operations on constants that a compiler performs instead of generating code for them. Each
reports an event if it has a result, and none if it fails. An event carries the constants
themselves; `Event.fields` says what a log shows of them.

An operation with one constant operand can be replaced if the constant satisfies a law: by the
constant, by the other operand, or by the opposite of the other operand. Both operators commute, so
it does not matter on which side the constant stands.

## Main definitions

* `Simplification`, `simplify?`: what an operation with a constant operand is replaced by.
* `Event`, with `Event.level`, `Event.message` and `Event.fields`.
* `Traced`: a result together with the events on the way to it.
* `Fold.compare`, `Fold.test`, `Fold.ternary`: comparing, and two ways to use the outcome.
* `Fold.convert`: converting.
* `Fold.simplify`: finding the simplification that a constant operand allows.
-/

namespace ConstFold

/-! ### Simplifying by one operand -/

/-- What `c op x` is replaced by, for a constant `c` and every `x`. -/
inductive Simplification where
  /-- The constant. -/
  | annihilate
  /-- The operand `x`. -/
  | identity
  /-- The opposite of `x`. -/
  | negate
  deriving DecidableEq

namespace Simplification

def name : Simplification → String
  | annihilate => "annihilate"
  | identity => "identity"
  | negate => "negate"

def tag : Simplification → String
  | annihilate => "Annihilate"
  | identity => "Identity"
  | negate => "Negate"

end Simplification

/-- The simplification that the laws of a constant allow for an operator. -/
def Laws.simplify? (laws : Laws) : ArithOp → Option Simplification
  | .add =>
    if laws.additiveAnnihilator then some .annihilate
    else if laws.additiveIdentity then some .identity
    else none
  | .mul =>
    if laws.multiplicativeAnnihilator then some .annihilate
    else if laws.multiplicativeIdentity then some .identity
    else if laws.multiplicativeNegator then some .negate
    else none

/-- The simplification that a constant operand allows; none if the constant is not numeric or
satisfies no law of the operator. -/
def simplify? (op : ArithOp) (constant : Value) : Option Simplification :=
  constant.laws?.bind fun laws => laws.simplify? op

/-! ### Events -/

inductive Level where
  | trace
  | debug
  deriving DecidableEq

def Level.name : Level → String
  | trace => "TRACE"
  | debug => "DEBUG"

/-- One fact that folding established. -/
inductive Event where
  /-- Two constants were compared. -/
  | compared (lhs rhs : Value) (unsigned : Bool) (outcome : Condition)
  /-- A constant was converted. -/
  | converted (source result : Value)
  /-- An operation with a constant operand was found to simplify. -/
  | simplified (op : ArithOp) (constant : Value) (how : Simplification)
  deriving DecidableEq

namespace Event

/-- What a log shows under one name: a text or a truth value. -/
inductive Field where
  | text (s : String)
  | flag (b : Bool)
  deriving DecidableEq

/-- The severity of an event: simplifications are rarer than the rest, and stand out. -/
def level : Event → Level
  | compared .. | converted .. => .trace
  | simplified .. => .debug

def message : Event → String
  | compared .. => "folded compare"
  | converted .. => "folded conversion"
  | simplified .. => "identity rewrite"

/-- The named fields of an event beside its message. -/
def fields : Event → List (String × Field)
  | compared lhs rhs unsigned outcome =>
    [("lhs", .text lhs.display), ("rhs", .text rhs.display), ("unsigned", .flag unsigned),
      ("result", .text outcome.name)]
  | converted source result => [("from", .text source.display), ("to", .text result.display)]
  | simplified op constant how =>
    [("op", .text op.tag), ("constant", .text constant.display), ("rewrite", .text how.tag)]

end Event

/-- A result together with the events on the way to it. -/
structure Traced (α : Type) where
  result : α
  events : List Event

/-- A function of the result; the events stay. -/
def Traced.map {α β : Type} (f : α → β) (t : Traced α) : Traced β :=
  { result := f t.result, events := t.events }

/-- A result without events. -/
def Traced.silent {α : Type} (a : α) : Traced α :=
  { result := a, events := [] }

/-! ### Operations -/

namespace Fold

def compare (lhs rhs : Value) (unsigned : Bool) : Traced (Except KindError Condition) :=
  match lhs.compare rhs unsigned with
  | .ok outcome => ⟨.ok outcome, [.compared lhs rhs unsigned outcome]⟩
  | .error e => .silent (.error e)

/-- Compares two constants and tests the outcome. A mask that accepts everything or nothing still
needs constants that can be compared. -/
def test (mask : Mask) (lhs rhs : Value) (unsigned : Bool) : Traced (Except KindError Bool) :=
  (compare lhs rhs unsigned).map (Except.map mask.apply)

/-- Compares two constants, integers as signed ones, to -1, 0 or 1. -/
def ternary (comparator : ThreeWay) (lhs rhs : Value) : Traced (Except KindError Int) :=
  (compare lhs rhs false).map (Except.map comparator.apply)

def convert (source : Value) (dest : Kind) : Traced (Except KindError Value) :=
  match source.convert dest with
  | .ok result => ⟨.ok result, [.converted source result]⟩
  | .error e => .silent (.error e)

def simplify (op : ArithOp) (constant : Value) : Traced (Option Simplification) :=
  match simplify? op constant with
  | some how => ⟨some how, [.simplified op constant how]⟩
  | none => .silent none

end Fold

end ConstFold
