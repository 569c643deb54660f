import ConstFold.Condition.Basic

/-!
# Runs of mask operations

A run starts from a mask and performs operations one after another. A `Change` replaces the mask
and answers nothing; a `Query` answers and leaves the mask alone.

## Main definitions

* `Mask.Change`, `Mask.change`: the operations that replace the mask.
* `Mask.Query`, `Mask.query`: the operations that only answer.
* `Mask.run`: the answer and the mask after each operation of a list.
-/

namespace ConstFold

namespace Mask

/-- An operation that replaces the mask. -/
inductive Change where
  | reverse
  | invert
  | complement
  | truncate
  | union (operand : Mask)
  | inter (operand : Mask)
  | diff (operand : Mask)
  | symmDiff (operand : Mask)
  /-- Becomes the mask that accepts one outcome. -/
  | single (c : Condition)
  deriving DecidableEq

/-- An operation that only answers. -/
inductive Query where
  | apply (c : Condition)
  | contains (operand : Mask)
  | intersects (operand : Mask)
  | isEmpty
  | isAll
  | checked
  | conditions
  deriving DecidableEq

inductive Step where
  | change (op : Change)
  | query (q : Query)
  deriving DecidableEq

inductive Answer where
  /-- Nothing, after a change. -/
  | done
  | flag (b : Bool)
  | bits (b : Option (BitVec 8))
  | conditions (cs : List Condition)
  deriving DecidableEq

def change (m : Mask) : Change → Mask
  | .reverse => m.reverse
  | .invert => m.invert
  | .complement => m.complement
  | .truncate => m.truncate
  | .union operand => m.union operand
  | .inter operand => m.inter operand
  | .diff operand => m.diff operand
  | .symmDiff operand => m.symmDiff operand
  | .single c => ofCondition c

def query (m : Mask) : Query → Answer
  | .apply c => .flag (m.apply c)
  | .contains operand => .flag (m.contains operand)
  | .intersects operand => .flag (m.intersects operand)
  | .isEmpty => .flag m.isEmpty
  | .isAll => .flag m.isAll
  | .checked => .bits m.checked?
  | .conditions => .conditions m.conditions

/-- The answer to an operation and the mask after it. -/
def step (m : Mask) : Step → Answer × Mask
  | .change op => (.done, m.change op)
  | .query q => (m.query q, m)

/-- The answers to a list of operations, each with the mask after it. -/
def run (m : Mask) : List Step → List (Answer × Mask)
  | [] => []
  | s :: rest => m.step s :: run (m.step s).2 rest

end Mask

end ConstFold
