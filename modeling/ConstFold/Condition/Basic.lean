/-!
# Conditions, and two ways to test them

Comparing two constants has exactly one of four outcomes, a `Condition`. Each outcome owns one bit,
so that a set of outcomes is a mask and membership a single conjunction.

A `Mask` is a two-way test on the outcome of a comparison: it accepts the outcomes whose bits it
has. The four known bits span sixteen tests,

```
0000 never    0100 gt     1000 unord  1100 ugt
0001 lt       0101 lgt    1001 ult    1101 ne
0010 eq       0110 ge     1010 ueq    1110 uge
0011 le       0111 ord    1011 ule    1111 always
```

and the upper four bits of the byte are unknown. They never decide what a mask accepts, but they
are carried along, and the operations differ in what becomes of them.

A three-way comparator turns the outcome of a comparison into -1, 0 or 1. The four of them differ
in the order of the operands and in the side on which an unordered outcome falls:

```
                  lt  eq  gt  un
nanLow            -1   0   1  -1
nanHigh           -1   0   1   1
swappedNanLow      1   0  -1  -1
swappedNanHigh     1   0  -1   1
```

## Main definitions

* `Condition`: the four outcomes, with their bits and names.
* `Condition.reverse`, `Condition.ofOrdering`: the outcome after swapping the operands, and the
  outcome of an ordered comparison.
* `Mask`, `Mask.apply`: the test and its evaluation.
* `Mask.reverse`, `Mask.invert`: the test for swapped operands, and the negated test.
* `Mask.union`, `Mask.inter`, `Mask.diff`, `Mask.symmDiff`, `Mask.complement`, `Mask.truncate`:
  the set operations.
* `Mask.contains`, `Mask.intersects`, `Mask.isEmpty`, `Mask.isAll`, `Mask.checked?`,
  `Mask.conditions`: the queries.
* `ThreeWay`, `ThreeWay.apply`: the comparators and their evaluation.
* `ThreeWay.reverse`, `ThreeWay.invert`: the comparator for swapped operands, and the negated one.
-/

namespace ConstFold

/-- The outcome of comparing two constants. -/
inductive Condition where
  /-- The left operand is the smaller one. -/
  | lt
  /-- The operands are equal. -/
  | eq
  /-- The left operand is the greater one. -/
  | gt
  /-- An operand is a NaN, so the two are unordered. -/
  | un
  deriving DecidableEq

namespace Condition

def all : List Condition :=
  [lt, eq, gt, un]

/-- The bit that stands for an outcome in a mask. -/
def bits : Condition → BitVec 8
  | lt => 0x01#8
  | eq => 0x02#8
  | gt => 0x04#8
  | un => 0x08#8

def ordinal : Condition → Nat
  | lt => 0
  | eq => 1
  | gt => 2
  | un => 3

/-- The outcome of the same comparison with its operands swapped. -/
def reverse : Condition → Condition
  | lt => gt
  | eq => eq
  | gt => lt
  | un => un

@[simp]
theorem reverse_reverse (c : Condition) : c.reverse.reverse = c := by
  cases c <;> rfl

/-- The outcome of comparing two operands that a linear order tells apart. -/
def ofOrdering : Ordering → Condition
  | .lt => lt
  | .eq => eq
  | .gt => gt

def name : Condition → String
  | lt => "lt"
  | eq => "eq"
  | gt => "gt"
  | un => "un"

def tag : Condition → String
  | lt => "Lt"
  | eq => "Eq"
  | gt => "Gt"
  | un => "Un"

/-- The name of the flag that an outcome is in the text of a mask. -/
def flag : Condition → String
  | lt => "LT"
  | eq => "EQ"
  | gt => "GT"
  | un => "UN"

def ofName? (s : String) : Option Condition :=
  all.find? fun c => c.name == s

def ofTag? (s : String) : Option Condition :=
  all.find? fun c => c.tag == s

def ofFlag? (s : String) : Option Condition :=
  all.find? fun c => c.flag == s

theorem ofTag?_tag (c : Condition) : ofTag? c.tag = some c := by
  cases c <;> decide

end Condition

/-! ### Masks -/

/-- A set of outcomes, one bit each, together with four unknown bits. -/
structure Mask where
  /-- The byte that holds the set. -/
  bits : BitVec 8
  deriving DecidableEq

namespace Mask

/-- The mask that accepts one outcome. -/
def ofCondition (c : Condition) : Mask :=
  ⟨c.bits⟩

/-- Whether a mask accepts an outcome. -/
def apply (m : Mask) (c : Condition) : Bool :=
  m.bits &&& c.bits != 0#8

/-! ### The sixteen tests -/

def never : Mask := ⟨0x00#8⟩

def lt : Mask := ofCondition .lt

def eq : Mask := ofCondition .eq

def gt : Mask := ofCondition .gt

/-- Accepts `un`: the operands are unordered. -/
def unord : Mask := ofCondition .un

/-- Accepts every outcome: all known bits. -/
def always : Mask := ⟨0x0f#8⟩

/-! ### Set operations -/

/-- Accepts what either mask accepts; unknown bits are united alike. -/
def union (a b : Mask) : Mask :=
  ⟨a.bits ||| b.bits⟩

/-- Accepts what both masks accept; unknown bits are intersected alike. -/
def inter (a b : Mask) : Mask :=
  ⟨a.bits &&& b.bits⟩

/-- Accepts what the first mask accepts and the second does not; unknown bits count too. -/
def diff (a b : Mask) : Mask :=
  ⟨a.bits &&& ~~~b.bits⟩

/-- Accepts what exactly one of two masks accepts; unknown bits count too. -/
def symmDiff (a b : Mask) : Mask :=
  ⟨a.bits ^^^ b.bits⟩

/-- Drops the unknown bits. -/
def truncate (m : Mask) : Mask :=
  ⟨m.bits &&& always.bits⟩

/-- Accepts what a mask refuses, without unknown bits. -/
def complement (m : Mask) : Mask :=
  truncate ⟨~~~m.bits⟩

/-! ### Swapping and negating a test -/

/-- The test that answers on swapped operands what `m` answers on the operands: `lt` and `gt`
change places, and unknown bits are dropped. -/
def reverse (m : Mask) : Mask :=
  ⟨m.bits &&& 0x0a#8 ||| (m.bits &&& 0x04#8) >>> 2 ||| (m.bits &&& 0x01#8) <<< 2⟩

/-- The negated test. Only the known bits are flipped. -/
def invert (m : Mask) : Mask :=
  ⟨m.bits ^^^ always.bits⟩

/-! ### Names -/

def le : Mask := lt.union eq

def lgt : Mask := lt.union gt

def ge : Mask := gt.union eq

def ord : Mask := le.union gt

def ult : Mask := unord.union lt

def ueq : Mask := unord.union eq

def ule : Mask := unord.union le

def ugt : Mask := unord.union gt

def ne : Mask := unord.union lgt

def uge : Mask := unord.union ge

/-- The sixteen tests with their names, in the order of their bits. -/
def named : List (String × Mask) :=
  [("never", never), ("lt", lt), ("eq", eq), ("le", le), ("gt", gt), ("lgt", lgt), ("ge", ge),
    ("ord", ord), ("unord", unord), ("ult", ult), ("ueq", ueq), ("ule", ule), ("ugt", ugt),
    ("ne", ne), ("uge", uge), ("always", always)]

/-- The name of a test. A mask with unknown bits counts as `always`, whatever it accepts. -/
def name (m : Mask) : String :=
  match named[m.bits.toNat]? with
  | some (text, _) => text
  | none => "always"

def ofName? (s : String) : Option Mask :=
  (named.find? fun p => p.1 == s).map Prod.snd

/-! ### Queries -/

/-- Whether all bits of `b`, unknown ones too, are in `a`. -/
def contains (a b : Mask) : Bool :=
  a.bits &&& b.bits == b.bits

/-- Whether two masks share a bit, unknown ones too. -/
def intersects (a b : Mask) : Bool :=
  a.bits &&& b.bits != 0#8

def isEmpty (m : Mask) : Bool :=
  m.bits == 0#8

/-- Whether a mask has all four known bits. -/
def isAll (m : Mask) : Bool :=
  m.contains always

/-- The byte of a mask without unknown bits. -/
def checked? (m : Mask) : Option (BitVec 8) :=
  if m.truncate = m then some m.bits else none

def unknown (m : Mask) : BitVec 8 :=
  m.bits &&& ~~~always.bits

/-- The outcomes that a mask accepts, in the order of their bits. -/
def conditions (m : Mask) : List Condition :=
  Condition.all.filter m.apply

end Mask

/-! ### Three-way comparators -/

/-- A three-way comparator. Its name says on which side the value of an unordered outcome is,
whether or not it takes its operands in swapped order. -/
inductive ThreeWay where
  /-- Operands in order; unordered counts as less. -/
  | nanLow
  /-- Operands in order; unordered counts as greater. -/
  | nanHigh
  /-- Operands swapped; unordered gives -1. -/
  | swappedNanLow
  /-- Operands swapped; unordered gives 1. -/
  | swappedNanHigh
  deriving DecidableEq

namespace ThreeWay

def all : List ThreeWay :=
  [nanLow, nanHigh, swappedNanLow, swappedNanHigh]

/-- The ordinal of a comparator: bit 1 says that the operands are swapped, bit 0 that unordered
gives 1. -/
def ordinal : ThreeWay → Nat
  | nanLow => 0
  | nanHigh => 1
  | swappedNanLow => 2
  | swappedNanHigh => 3

/-- The comparator that answers on swapped operands what `t` answers on the operands. -/
def reverse : ThreeWay → ThreeWay
  | nanLow => swappedNanLow
  | nanHigh => swappedNanHigh
  | swappedNanLow => nanLow
  | swappedNanHigh => nanHigh

/-- The comparator that answers the negation of what `t` answers. -/
def invert : ThreeWay → ThreeWay
  | nanLow => swappedNanHigh
  | nanHigh => swappedNanLow
  | swappedNanLow => nanHigh
  | swappedNanHigh => nanLow

/-- The outcomes on which a comparator gives 1. -/
def positive : ThreeWay → Mask
  | nanLow => .gt
  | nanHigh => .ugt
  | swappedNanLow => .lt
  | swappedNanHigh => .ult

/-- The value of a comparator at an outcome: 0 at `eq`, else 1 or -1. -/
def apply (t : ThreeWay) (c : Condition) : Int :=
  if c = .eq then 0
  else if t.positive.apply c then 1
  else -1

def name : ThreeWay → String
  | nanLow => "cmpl"
  | nanHigh => "cmpg"
  | swappedNanLow => "ccmpl"
  | swappedNanHigh => "ccmpg"

def tag : ThreeWay → String
  | nanLow => "NanLow"
  | nanHigh => "NanHigh"
  | swappedNanLow => "SwappedNanLow"
  | swappedNanHigh => "SwappedNanHigh"

def ofName? (s : String) : Option ThreeWay :=
  all.find? fun t => t.name == s

def ofTag? (s : String) : Option ThreeWay :=
  all.find? fun t => t.tag == s

end ThreeWay

end ConstFold
