import ConstFold.Binary.Round
import ConstFold.Condition.Mask.Text
import ConstFold.Frame
import ConstFold.Value.Basic

/-!
# Cache trees, and writing them

A compilation cache stores constants and their parts in trees of the usual data format: null,
booleans, numbers, strings, arrays and objects. Integers are kept apart from the other numbers and
have any size; the other numbers are double floats.

Kinds, conditions and comparators are written as their tags, a mask as its text, and a constant as
an object that has the tag of its kind as the only key and its payload as the content.

## Main definitions

* `Cache.Tree`.
* `Cache.Tree.ofTag`, `Cache.Tree.tag?`: the two spellings of a tag without content.
* `Cache.encodeKind`, `Cache.encodeTypeKind`, `Cache.encodeCondition`, `Cache.encodeThreeWay`,
  `Cache.encodeMask`, `Cache.encodeAddr`, `Cache.encodeMemory`.
* `Cache.encodeValue`.

## Implementation notes

A float travels as a double float, exactly if it is finite. The format has no other floats, so an
infinity and a NaN are written as null and cannot be read back.
-/

namespace ConstFold

namespace Cache

/-- A tree of the cache. An object lists its entries in order. -/
inductive Tree where
  | null
  | bool (b : Bool)
  | int (n : Int)
  | real (r : Binary .binary64)
  | str (s : String)
  | arr (items : List Tree)
  | obj (entries : List (String × Tree))

namespace Tree

def ofTag (tag : String) : Tree :=
  str tag

/-- A tag without content: the tag as a string, or an object with the tag as its only key and
null as its content. -/
def tag? : Tree → Option String
  | str tag => some tag
  | obj [(tag, null)] => some tag
  | _ => none

/-- A tag with its content: an object with one entry. -/
def tagged (tag : String) (content : Tree) : Tree :=
  obj [(tag, content)]

end Tree

/-! ### Writing -/

def encodeKind (k : Kind) : Tree :=
  .ofTag k.tag

def encodeTypeKind (t : TypeKind) : Tree :=
  .ofTag t.tag

def encodeCondition (c : Condition) : Tree :=
  .ofTag c.tag

def encodeThreeWay (t : ThreeWay) : Tree :=
  .ofTag t.tag

def encodeMask (m : Mask) : Tree :=
  .str m.text

def encodeAddr (a : Addr) : Tree :=
  .int a.raw.toNat

def encodeMemory (m : Memory) : Tree :=
  .ofTag m.tag

def encodeBinary {f : Format} (b : Binary f) : Tree :=
  if b.isFinite then .real (b.convert .binary64) else .null

def encodePayload : Value → Tree
  | .int32 v => .int v.toInt
  | .int64 v => .int v.toInt
  | .float32 v => encodeBinary v
  | .float64 v => encodeBinary v
  | .addr a => encodeAddr a
  | .cond c => encodeCondition c
  | .memory m => encodeMemory m

def encodeValue (v : Value) : Tree :=
  .tagged v.kind.tag (encodePayload v)

end Cache

end ConstFold
