import ConstFold.Fold.Basic
import ConstFold.Value.Identity
import ConstFold.Value.Immediate

/-!
# Value cells

A cell holds one constant, and a run of steps reads and replaces it. A step that fails, for the
reasons of `KindError` or by a misuse, leaves the cell as it is, and the run goes on with the next
step.

## Main definitions

* `Cell.Step`, `Cell.Answer`: the steps, and what they answer.
* `Cell.step`: the answer, the events and the constant after a step.
* `Cell.run`: all of these for a list of steps.

## Implementation notes

Steps that replace the constant are exactly the ones that can answer `Answer.done`.
-/

namespace ConstFold

namespace Cell

inductive Step where
  /-- Replaces the constant, whatever its kind. -/
  | set (v : Value)
  /-- Replaces the constant by the zero of a kind. -/
  | zero (k : Kind)
  /-- Replaces the constant by its conversion to a kind. -/
  | convert (k : Kind)
  | kind
  | get (k : Kind)
  | tryGet (k : Kind)
  | payload (k : Kind)
  | isNonzero
  | isNonzeroAs (k : Kind)
  | eq (other : Value)
  | eqAs (k : Kind) (other : Value)
  | compare (other : Value) (unsigned : Bool)
  | test (mask : Mask) (other : Value) (unsigned : Bool)
  | ternary (comparator : ThreeWay) (other : Value)
  | simplify (op : ArithOp)
  | display
  | immediates
  | predicates
  | laws
  deriving DecidableEq

inductive Answer where
  /-- The constant was replaced. -/
  | done
  | kind (k : Kind)
  | value (v : Option Value)
  | flag (b : Bool)
  | condition (c : Condition)
  | sign (n : Int)
  | simplification (s : Option Simplification)
  | text (s : String)
  | immediates (i : Immediates)
  | predicates (p : Predicates)
  | laws (l : Option Laws)
  | failed (e : KindError)
  | misused (m : Misuse)
  deriving DecidableEq

/-- The answer of a step that may fail. -/
def Answer.ofExcept {α : Type} (f : α → Answer) : Except KindError α → Answer
  | .ok a => f a
  | .error e => failed e

/-- The answer of a step that may be misused. -/
def Answer.ofGuarded {α : Type} (f : α → Answer) : Except Misuse α → Answer
  | .ok a => f a
  | .error m => misused m

/-- What comes of a step. -/
structure Outcome where
  answer : Answer
  /-- The constant after the step. -/
  state : Value
  events : List Event
  deriving DecidableEq

/-- The outcome of a step that only answers. -/
def ask (v : Value) (answer : Traced Answer) : Outcome :=
  { answer := answer.result, state := v, events := answer.events }

/-- The outcome of a step that replaces the constant, unless it fails. -/
def replace (v : Value) (next : Traced (Except KindError Value)) : Outcome :=
  match next.result with
  | .ok w => { answer := .done, state := w, events := next.events }
  | .error e => { answer := .failed e, state := v, events := next.events }

/-- The outcome of a step on a cell that holds `v`. -/
def step (v : Value) : Step → Outcome
  | .set w => replace v (.silent (.ok w))
  | .zero k => replace v (.silent (Value.zero k))
  | .convert k => replace v (Fold.convert v k)
  | .kind => ask v (.silent (.kind v.kind))
  | .get k => ask v (.silent (.value ((v.get? k).map (Value.ofPayload k))))
  | .tryGet k =>
    ask v (.silent (.ofExcept (fun p => .value (some (Value.ofPayload k p))) (v.tryGet k)))
  | .payload k =>
    ask v (.silent (.ofGuarded (fun p => .value (some (Value.ofPayload k p))) (v.payload k)))
  | .isNonzero => ask v (.silent (.flag v.isNonzero))
  | .isNonzeroAs k => ask v (.silent (.ofGuarded .flag (v.isNonzeroAs k)))
  | .eq other => ask v (.silent (.flag (v.eqBits other)))
  | .eqAs k other => ask v (.silent (.ofGuarded .flag (v.eqAs k other)))
  | .compare other unsigned =>
    ask v ((Fold.compare v other unsigned).map (.ofExcept .condition))
  | .test mask other unsigned =>
    ask v ((Fold.test mask v other unsigned).map (.ofExcept .flag))
  | .ternary comparator other =>
    ask v ((Fold.ternary comparator v other).map (.ofExcept .sign))
  | .simplify op => ask v ((Fold.simplify op v).map .simplification)
  | .display => ask v (.silent (.text v.display))
  | .immediates => ask v (.silent (.immediates v.immediates))
  | .predicates => ask v (.silent (.predicates v.predicates))
  | .laws => ask v (.silent (.laws v.laws?))

/-- The outcomes of a list of steps, each on the constant that the one before it left. -/
def run (v : Value) : List Step → List Outcome
  | [] => []
  | s :: rest => step v s :: run (step v s).state rest

end Cell

end ConstFold
