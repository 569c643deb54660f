import ConstFold.Value.Identity
import Std.Data.HashMap

/-!
# Constant pools

A pool gives every constant an index. Identical constants share one, and an index is never given
twice, also after its constant was removed.

## Main definitions

* `Pool`, `Pool.empty`.
* `Pool.intern`, `Pool.find?`, `Pool.remove`.
* `Pool.run`: a list of these steps, with the number of constants after each.
-/

namespace ConstFold

structure Pool where
  /-- The index of each constant in the pool. -/
  indices : Std.HashMap Value Nat
  /-- The index that the next new constant gets. -/
  next : Nat

namespace Pool

def empty : Pool :=
  { indices := ∅, next := 0 }

def size (p : Pool) : Nat :=
  p.indices.size

def find? (p : Pool) (v : Value) : Option Nat :=
  p.indices[v]?

/-- The index of a constant, which is put into the pool under the next index if it is not there. -/
def intern (p : Pool) (v : Value) : Nat × Pool :=
  match p.find? v with
  | some index => (index, p)
  | none => (p.next, { indices := p.indices.insert v p.next, next := p.next + 1 })

/-- The index that a constant had, and the pool without it. -/
def remove (p : Pool) (v : Value) : Option Nat × Pool :=
  (p.find? v, { p with indices := p.indices.erase v })

inductive Step where
  | intern (v : Value)
  | find (v : Value)
  | remove (v : Value)
  deriving DecidableEq

/-- The index that a step answers, and the pool after it. -/
def step (p : Pool) : Step → Option Nat × Pool
  | .intern v =>
    let (index, p) := p.intern v
    (some index, p)
  | .find v => (p.find? v, p)
  | .remove v => p.remove v

/-- The answers to a list of steps, each with the pool after it. -/
def run (p : Pool) : List Step → List (Option Nat × Pool)
  | [] => []
  | s :: rest => p.step s :: run (p.step s).2 rest

end Pool

end ConstFold
